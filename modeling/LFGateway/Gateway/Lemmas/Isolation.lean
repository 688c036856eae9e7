import LFGateway.Gateway.Impl.Keyed
import LFGateway.Gateway.Lemmas.Sends
import LFGateway.Gateway.Lemmas.Stages
import LFGateway.RateLimit.Impl.TokenBucket

/-!
This module contains that the routes do not influence each other's limits: a run without the requests
of other patterns, and without those that were turned away before the limiters, decides the remaining
requests in the same way.
-/

namespace LFGateway
namespace Gateway
namespace Keyed

open Foundation

def ruleFor (rules_ : List RouteRule) (raw : Bytes) : Option RouteRule :=
  (ruleOf rules_ raw).bind fun i => rules_[i]?

def answers (h : List ApiEvent) : List Bytes :=
  h.filterMap fun
    | ⟨.send text, _⟩ => some text
    | _ => none

/--
The request has a rule with another pattern, or it was answered 400, 404 or 401.
-/
def LeftOut (rules_ : List RouteRule) (rule : RouteRule) (t : Request) : Prop :=
  (∃ other ∈ ruleFor rules_ t.input, other.pathPattern ≠ rule.pathPattern) ∨
    ∃ text ∈ answers t.history, Rejects text

instance : Decidable (LeftOut rules_ rule t) := inferInstanceAs (Decidable (_ ∨ _))

section Tracked

variable {raw : Bytes} {φ φ' : Stage} {o : ApiOp} {r : o.Reply} {h : List ApiEvent}
variable {V : Type} {redis : KeyedRedis V} {rules_ : List RouteRule}

theorem answers_append {h' : List ApiEvent} : answers (h ++ h') = answers h ++ answers h' := by
  simp [answers]

theorem answers_of_not_send (ho : ∀ text, o ≠ .send text) : answers (h ++ [⟨o, r⟩]) = answers h := by
  rw [answers_append]
  cases o with
  | send text => exact absurd rfl (ho text)
  | add | steadyNow | systemNow | routerMatch | readRule | command => exact List.append_nil _

structure Past (h : List ApiEvent) (φ : Stage) : Prop where
  unanswered : φ.Unanswered → answers h = []
  early : φ.Early → ∀ e ∈ h, ¬IsLimiter e.op
  not_rejects : ∀ e ∈ h, IsLimiter e.op → ∀ text ∈ answers h, ¬Rejects text

theorem past_nil : Past [] .arrived := ⟨fun _ => rfl, by simp, by simp⟩

theorem Past.snoc (hpast : Past h φ) (hφ' : stages raw φ o r = some φ')
    : Past (h ++ [⟨o, r⟩]) φ' := by
  constructor
  . intro hunanswered
    obtain ⟨hbefore, hsend⟩ := stages_unanswered hφ' hunanswered
    rw [answers_of_not_send hsend]
    exact hpast.unanswered hbefore
  . intro hearly e he
    obtain ⟨hbefore, hlimiter⟩ := stages_early hφ' hearly
    rw [List.mem_append, List.mem_singleton] at he
    cases he with
    | inl hold => exact hpast.early hbefore e hold
    | inr heq =>
      rw [heq]
      exact hlimiter
  . intro e he hlimiter
    rw [List.mem_append, List.mem_singleton] at he
    by_cases hsend : ∃ text, o = .send text
    . obtain ⟨text, rfl⟩ := hsend
      obtain ⟨hunanswered, hearly, _⟩ := stages_send hφ'
      have hanswers : answers (h ++ [⟨.send text, r⟩]) = [text] := by
        rw [answers_append, hpast.unanswered hunanswered]
        rfl
      have hold : e ∈ h := by
        apply he.resolve_right
        rintro rfl
        exact hlimiter
      have htext : ¬Rejects text := hearly.resolve_left fun hearly => hpast.early hearly e hold hlimiter
      rw [hanswers]
      simpa using htext
    . rw [answers_of_not_send (not_exists.mp hsend)]
      cases he with
      | inl hold => exact hpast.not_rejects e hold hlimiter
      | inr heq =>
        -- whoever asks a limiter has not answered yet
        rw [heq] at hlimiter
        rw [hpast.unanswered (stages_limiter hφ' hlimiter)]
        simp

/--
A reply that comes from the table.
-/
def FromTable (rules_ : List RouteRule) : ApiEvent → Prop
  | ⟨.routerMatch path, found⟩ => found = Router.match 0 rules_ path
  | ⟨.readRule rule, r⟩ => rules_[rule.index]? = some r
  | _ => True

theorem fromTable_of_localReply (h : localReply rules_ o = some r) : FromTable rules_ ⟨o, r⟩ := by
  cases o with
  | routerMatch path =>
    rw [localReply, Option.some.injEq] at h
    exact h.symm
  | readRule rule => exact h
  | add | steadyNow | systemNow | command | send => trivial

theorem fromTable_of_answer {store store' : KeyedRedis.Store V} {choice : Choice}
    (h : answer redis rules_ store o choice = some (r, store')) : FromTable rules_ ⟨o, r⟩ := by
  cases o with
  | routerMatch | readRule =>
    cases choice with
    | go => exact fromTable_of_localReply (answerLocally_eq_some_iff.mp h).1
    | time | redis | lostBefore | lostAfter => contradiction
  | add | steadyNow | systemNow | command | send => trivial

theorem ruleOf_of_routedPath {path : Bytes} (hpath : routedPath raw = some path)
    : ruleOf rules_ raw = rules_.findIdx? fun rule => rule.matches path := by
  unfold routedPath at hpath
  dsimp only at hpath
  split at hpath
  . next hparsed =>
    rw [Option.some.injEq] at hpath
    unfold ruleOf
    dsimp only
    rw [hparsed, ← hpath]
  . contradiction

structure Faithful (rules_ : List RouteRule) (raw : Bytes) (φ : Stage) : Prop where
  rule : ∀ rule, φ.rule = some rule → ruleOf rules_ raw = some rule.index
  read : ∀ r, φ.read = some r → ruleFor rules_ raw = some r

theorem Faithful.next (hfaithful : Faithful rules_ raw φ) (hφ' : stages raw φ o r = some φ')
    (htable : FromTable rules_ ⟨o, r⟩) : Faithful rules_ raw φ' := by
  constructor
  . intro rule hrule
    rcases stages_rule hφ' hrule with hold | ⟨path, heq⟩
    . exact hfaithful.rule rule hold
    . cases heq
      have hfound : some rule = Router.match 0 rules_ path := htable
      rw [ruleOf_of_routedPath (stages_match hφ').2.1]
      unfold Router.match at hfound
      obtain ⟨index, hindex, rfl⟩ := Option.map_eq_some_iff.mp hfound.symm
      exact hindex
  . intro r' hread
    rcases stages_readAs hφ' hread with hold | ⟨rule, heq⟩
    . exact hfaithful.read r' hold
    . cases heq
      have hr' : rules_[rule.index]? = some r' := htable
      unfold ruleFor
      rw [hfaithful.rule rule (stages_read hφ').1, Option.bind_some]
      exact hr'

def Tracked (rules_ : List RouteRule) (t : Request) : Prop :=
  ∃ φ, (stages t.input).Conforms (fun _ _ => True) φ t.now ∧ Faithful rules_ t.input φ ∧
    Past t.history φ

theorem tracked_arrived (raw : Bytes) : Tracked rules_ ⟨raw, [], processApiRequest raw⟩ := by
  refine ⟨.arrived, staged_processApiRequest raw, ⟨?_, ?_⟩, past_nil⟩
  . intro rule hrule
    contradiction
  . intro r hread
    contradiction

theorem Tracked.advance {store store' : KeyedRedis.Store V} {t t' : Request} {choice : Choice}
    (htracked : Tracked rules_ t)
    (h : Threads.advance (answer redis rules_) store t choice = some (store', t'))
    : Tracked rules_ t' := by
  obtain ⟨o, next, r, hnow, hanswer, rfl⟩ := Threads.advance_eq_some h
  obtain ⟨φ, hconforms, hfaithful, hpast⟩ := htracked
  rw [hnow] at hconforms
  obtain ⟨φ', hφ', hnext⟩ := hconforms r
  exact ⟨φ', hnext, hfaithful.next hφ' (fromTable_of_answer hanswer), hpast.snoc hφ'⟩

end Tracked

section Same

variable {V : Type} {redis : KeyedRedis V} {rules_ : List RouteRule} {rule : RouteRule}
variable {store store' : KeyedRedis.Store V} {cmd : Command} {at' : Int}

/--
The keys that a request of a pattern goes by: those of tokens, of its bucket and of its counters.
-/
def Seen (rule : RouteRule) (key : Bytes) : Prop :=
  tokenPrefix <+: key ∨ key = bucketKey rule.pathPattern ∨ ∃ ns, key = secondKey rule.pathPattern ns

def Same (rule : RouteRule) (store store' : KeyedRedis.Store V) : Prop :=
  ∀ key, Seen rule key → store key = store' key

theorem not_seen_log : ¬Seen rule logKey := by
  rintro (htoken | hbucket | ⟨ns, hsecond⟩)
  . exact absurd (head?_of_tokenPrefix htoken) (by decide)
  . exact ne_of_head? (by rw [head?_bucketKey]; decide) hbucket
  . exact ne_of_head? (by rw [head?_secondKey]; decide) hsecond

theorem not_seen_of_ne {other : RouteRule} {key : Bytes} (hrule : 0 ∉ rule.pathPattern)
    (hother : 0 ∉ other.pathPattern) (hne : other.pathPattern ≠ rule.pathPattern)
    (hkey : key = bucketKey other.pathPattern ∨ ∃ ns, key = secondKey other.pathPattern ns)
    : ¬Seen rule key := by
  rcases hkey with rfl | ⟨ns, rfl⟩
  . rintro (htoken | hbucket | ⟨ms, hsecond⟩)
    . exact absurd (head?_of_tokenPrefix htoken) (by rw [head?_bucketKey]; decide)
    . exact hne (bucketKey_injective hother hrule hbucket)
    . exact ne_of_head? (by rw [head?_bucketKey, head?_secondKey]; decide) hsecond
  . rintro (htoken | hbucket | ⟨ms, hsecond⟩)
    . exact absurd (head?_of_tokenPrefix htoken) (by rw [head?_secondKey]; decide)
    . exact ne_of_head? (by rw [head?_bucketKey, head?_secondKey]; decide) hbucket
    . exact hne (secondKey_injective hother hrule hsecond).1

theorem execute_seen (hsame : Same rule store store') (hkey : Seen rule cmd.key)
    : (redis.execute store cmd at').1 = (redis.execute store' cmd at').1 ∧
        Same rule (redis.execute store cmd at').2 (redis.execute store' cmd at').2 := by
  unfold KeyedRedis.execute
  rw [hsame cmd.key hkey]
  refine ⟨rfl, ?_⟩
  intro key hseen
  by_cases heq : key = cmd.key
  . subst heq
    simp
  . dsimp only
    rw [Function.update_of_ne heq, Function.update_of_ne heq]
    exact hsame key hseen

theorem execute_unseen (hkey : ¬Seen rule cmd.key)
    : Same rule store (redis.execute store cmd at').2 := by
  intro key hseen
  unfold KeyedRedis.execute
  have hne : key ≠ cmd.key := by
    rintro rfl
    exact hkey hseen
  dsimp only
  rw [Function.update_of_ne hne]

theorem execute_get {key : Bytes} : (redis.execute store (.get key) at').2 = store := by
  unfold KeyedRedis.execute
  dsimp only
  rw [redis.get_keeps]
  exact Function.update_eq_self _ _

theorem Same.trans {store'' : KeyedRedis.Store V} (h : Same rule store store')
    (h' : Same rule store' store'') : Same rule store store'' :=
  fun key hseen => (h key hseen).trans (h' key hseen)

theorem Same.symm (h : Same rule store store') : Same rule store' store :=
  fun key hseen => (h key hseen).symm

section Answer

variable {choice : Choice} {via : Member}

theorem answer_other {o : ApiOp} {r : o.Reply} (ho : ∀ via cmd, o ≠ .command via cmd)
    (h : answer redis rules_ store o choice = some (r, store'))
    : store' = store ∧ ∀ store, answer redis rules_ store o choice = some (r, store) := by
  cases o with
  | add | routerMatch | readRule | send =>
    cases choice with
    | go =>
      obtain ⟨hr, rfl⟩ := answerLocally_eq_some_iff.mp h
      exact ⟨rfl, fun store => answerLocally_eq_some_iff.mpr ⟨hr, rfl⟩⟩
    | time | redis | lostBefore | lostAfter => contradiction
  | steadyNow | systemNow =>
    cases choice with
    | time ns =>
      simp only [answer, Option.some.injEq, Prod.mk.injEq] at h
      obtain ⟨rfl, rfl⟩ := h
      exact ⟨rfl, fun store => rfl⟩
    | go | redis | lostBefore | lostAfter => contradiction
  | command via cmd => exact absurd rfl (ho via cmd)

theorem answer_seen {r : Option RedisReply} {u : KeyedRedis.Store V} (hsame : Same rule store u)
    (hkey : Seen rule cmd.key) (h : answer redis rules_ store (.command via cmd) choice = some (r, store'))
    : ∃ u', answer redis rules_ u (.command via cmd) choice = some (r, u') ∧ Same rule store' u' := by
  cases choice with
  | redis at' =>
    simp only [answer, Option.some.injEq, Prod.mk.injEq] at h
    obtain ⟨rfl, rfl⟩ := h
    have hreply : (redis.execute store cmd at').1 = (redis.execute u cmd at').1 :=
      (execute_seen hsame hkey).1
    exact ⟨_, by simp only [answer, hreply], (execute_seen hsame hkey).2⟩
  | lostBefore =>
    simp only [answer, Option.some.injEq, Prod.mk.injEq] at h
    obtain ⟨rfl, rfl⟩ := h
    exact ⟨u, rfl, hsame⟩
  | lostAfter at' =>
    simp only [answer, Option.some.injEq, Prod.mk.injEq] at h
    obtain ⟨rfl, rfl⟩ := h
    exact ⟨_, rfl, (execute_seen hsame hkey).2⟩
  | go | time => contradiction

theorem answer_unseen {r : Option RedisReply} (hkey : ¬Seen rule cmd.key)
    (h : answer redis rules_ store (.command via cmd) choice = some (r, store'))
    : Same rule store store' ∧
        ∀ u, ∃ r' u', answer redis rules_ u (.command via cmd) choice = some (r', u') ∧ Same rule u u' := by
  cases choice with
  | redis at' =>
    simp only [answer, Option.some.injEq, Prod.mk.injEq] at h
    obtain ⟨rfl, rfl⟩ := h
    exact ⟨execute_unseen hkey, fun u => ⟨_, _, rfl, execute_unseen hkey⟩⟩
  | lostBefore =>
    simp only [answer, Option.some.injEq, Prod.mk.injEq] at h
    obtain ⟨rfl, rfl⟩ := h
    exact ⟨fun _ _ => rfl, fun u => ⟨none, u, rfl, fun _ _ => rfl⟩⟩
  | lostAfter at' =>
    simp only [answer, Option.some.injEq, Prod.mk.injEq] at h
    obtain ⟨rfl, rfl⟩ := h
    exact ⟨execute_unseen hkey, fun u => ⟨_, _, rfl, execute_unseen hkey⟩⟩
  | go | time => contradiction

theorem answer_get {key : Bytes} {r : Option RedisReply}
    (h : answer redis rules_ store (.command via (.get key)) choice = some (r, store')) : store' = store := by
  cases choice with
  | redis at' | lostAfter at' =>
    simp only [answer, Option.some.injEq, Prod.mk.injEq] at h
    rw [← h.2, execute_get]
  | lostBefore =>
    simp only [answer, Option.some.injEq, Prod.mk.injEq] at h
    exact h.2.symm
  | go | time => contradiction

end Answer

end Same

section Steps

variable {V : Type} {redis : KeyedRedis V} {rules_ : List RouteRule} {rule : RouteRule}
variable {store store' : KeyedRedis.Store V} {t t' : Request} {choice : Choice}

theorem same_of_advance (hclean : ∀ r ∈ rules_, 0 ∉ r.pathPattern) (hrule : 0 ∉ rule.pathPattern)
    (htracked : Tracked rules_ t)
    (h : Threads.advance (answer redis rules_) store t choice = some (store', t'))
    (hout : (∃ other ∈ ruleFor rules_ t.input, other.pathPattern ≠ rule.pathPattern) ∨
      ∀ e ∈ t'.history, ¬IsLimiter e.op)
    : Same rule store store' := by
  obtain ⟨o, next, r, hnow, hanswer, rfl⟩ := Threads.advance_eq_some h
  by_cases hcommand : ∃ via cmd, o = .command via cmd
  . obtain ⟨via, cmd, rfl⟩ := hcommand
    obtain ⟨φ, hconforms, hfaithful, _⟩ := htracked
    rw [hnow] at hconforms
    obtain ⟨φ', hφ', _⟩ := hconforms r
    rcases stages_command hφ' with ⟨key, rfl, _⟩ | ⟨_, read, _, _, hread, _, _, hlimiter, hkey⟩ | ⟨text, rfl, htext, _⟩
    . rw [answer_get hanswer]
      exact fun _ _ => rfl
    . rcases hout with ⟨other, hother, hne⟩ | hnone
      . rw [Option.mem_def, hfaithful.read read hread, Option.some.injEq] at hother
        subst hother
        have hmem : read ∈ rules_ := by
          obtain ⟨i, _, hi⟩ := Option.bind_eq_some_iff.mp (hfaithful.read read hread)
          exact List.mem_of_getElem? hi
        exact (answer_unseen (not_seen_of_ne hrule (hclean read hmem) hne hkey) hanswer).1
      . exact absurd hlimiter (hnone ⟨_, r⟩ (by simp))
    . have hunseen : ¬Seen rule (Command.xadd text).key := by
        obtain ⟨rest, rfl⟩ := htext
        exact not_seen_log
      exact (answer_unseen hunseen hanswer).1
  . have hother : ∀ via cmd, o ≠ .command via cmd := fun via cmd heq => hcommand ⟨via, cmd, heq⟩
    rw [(answer_other hother hanswer).1]
    exact fun _ _ => rfl

def Alike (t v : Request) : Prop :=
  t = v ∨ (Threads.Finished t ∧ Threads.Finished v ∧ answers t.history = answers v.history)

theorem finished_of_logged {raw : Bytes} {p : ApiProg (Except StdException Unit)}
    (h : (stages raw).Conforms (fun _ _ => True) .logged p) : ∃ a, p = .ret a := by
  cases p with
  | ret a => exact ⟨a, rfl⟩
  | op o next =>
    obtain ⟨r⟩ := (inferInstance : Nonempty o.Reply)
    obtain ⟨φ, hφ, _⟩ := h r
    contradiction

theorem alike_of_advance {u : KeyedRedis.Store V} {v : Request} (htracked : Tracked rules_ t)
    (h : Threads.advance (answer redis rules_) store t choice = some (store', t'))
    (hin : ∀ other ∈ ruleFor rules_ t.input, other.pathPattern = rule.pathPattern)
    (hsame : Same rule store u) (halike : Alike t v)
    : ∃ u' v', Threads.advance (answer redis rules_) u v choice = some (u', v') ∧
        Same rule store' u' ∧ Alike t' v' := by
  obtain ⟨o, next, r, hnow, hanswer, rfl⟩ := Threads.advance_eq_some h
  cases halike with
  | inr hended =>
    obtain ⟨⟨a, hret⟩, _⟩ := hended
    rw [hnow] at hret
    contradiction
  | inl heq =>
    subst heq
    by_cases hcommand : ∃ via cmd, o = .command via cmd
    . obtain ⟨via, cmd, rfl⟩ := hcommand
      obtain ⟨φ, hconforms, hfaithful, _⟩ := htracked
      rw [hnow] at hconforms
      obtain ⟨φ', hφ', _⟩ := hconforms r
      have hseen : Seen rule cmd.key → ∃ u' v',
          Threads.advance (answer redis rules_) u t choice = some (u', v') ∧ Same rule store' u' ∧
            Alike ⟨t.input, t.history ++ [⟨.command via cmd, r⟩], next r⟩ v' := by
        intro hkey
        obtain ⟨u', hu', hstore⟩ := answer_seen hsame hkey hanswer
        exact ⟨u', _, Threads.advance_of_answer hnow hu', hstore, .inl rfl⟩
      rcases stages_command hφ' with ⟨key, rfl, hkey, _⟩ | ⟨_, read, _, _, hread, _, _, _, hkey⟩ | ⟨text, rfl, htext, rfl⟩
      . exact hseen (.inl hkey)
      . have hpattern := hin read (hfaithful.read read hread)
        rw [hpattern] at hkey
        exact hseen (.inr hkey)
      . -- the replies to `XADD` differ, and nothing comes after it
        have hunseen : ¬Seen rule (Command.xadd text).key := by
          obtain ⟨rest, rfl⟩ := htext
          exact not_seen_log
        obtain ⟨hstore, htotal⟩ := answer_unseen hunseen hanswer
        obtain ⟨r', u', hu', hother⟩ := htotal u
        have hlast : ∀ r : Option RedisReply, ∃ a, next r = .ret a := by
          intro r
          obtain ⟨φ', hφ', hnext⟩ := hconforms r
          rcases stages_command hφ' with ⟨_, heq, _⟩ | ⟨_, _, _, _, _, _, _, hlimiter, _⟩ | ⟨_, _, _, rfl⟩
          . contradiction
          . exact absurd hlimiter id
          . exact finished_of_logged hnext
        refine ⟨u', _, Threads.advance_of_answer hnow hu', ?_, .inr ⟨hlast r, hlast r', ?_⟩⟩
        . exact (hstore.symm.trans hsame).trans hother
        . rw [answers_of_not_send (by simp), answers_of_not_send (by simp)]
    . have hother : ∀ via cmd, o ≠ .command via cmd := fun via cmd heq => hcommand ⟨via, cmd, heq⟩
      obtain ⟨rfl, htotal⟩ := answer_other hother hanswer
      exact ⟨u, _, Threads.advance_of_answer hnow (htotal u), hsame, .inl rfl⟩

end Steps

section Runs

variable {V : Type} {redis : KeyedRedis V} {rules_ : List RouteRule} {rule : RouteRule}
variable {ι : Type} [DecidableEq ι] {raw : ι → Bytes} {s s' : Requests V ι} {l : Label ι} {ls : List (Label ι)}

def Sound (rules_ : List RouteRule) (raw : ι → Bytes) (s : Requests V ι) : Prop :=
  ∀ name, Tracked rules_ (s.party name) ∧ (s.party name).input = raw name

theorem sound_step (hsound : Sound rules_ raw s) (hl : step redis rules_ s l = some s')
    : Sound rules_ raw s' := by
  obtain ⟨store, t, hadvance, rfl⟩ := Family.step_eq_some.mp hl
  intro name
  by_cases heq : name = l.1
  . subst heq
    obtain ⟨htracked, hinput⟩ := hsound l.1
    dsimp only
    rw [Function.update_self]
    refine ⟨htracked.advance hadvance, ?_⟩
    obtain ⟨o, next, r, _, _, rfl⟩ := Threads.advance_eq_some hadvance
    exact hinput
  . rw [Family.step_party_of_ne hl heq]
    exact hsound name

theorem history_prefix_of_exec (h : exec (step redis rules_) s ls = some s') (name : ι)
    : (s.party name).history <+: (s'.party name).history := by
  apply exec_invariant (step redis rules_)
    (P := fun u => (s.party name).history <+: (u.party name).history) _ (List.prefix_refl _) h
  intro u l u' hbefore hl
  apply hbefore.trans
  by_cases heq : name = l.1
  . subst heq
    obtain ⟨store, t, hadvance, rfl⟩ := Family.step_eq_some.mp hl
    obtain ⟨o, next, r, _, _, rfl⟩ := Threads.advance_eq_some hadvance
    dsimp only
    rw [Function.update_self]
    exact List.prefix_append _ _
  . rw [Family.step_party_of_ne hl heq]

def remains (rules_ : List RouteRule) (rule : RouteRule) (s : Requests V ι) (name : ι) : Bool :=
  ¬LeftOut rules_ rule (s.party name)

theorem unnoticed_of_exec (hclean : ∀ r ∈ rules_, 0 ∉ r.pathPattern) (hrule : rule ∈ rules_)
    (hsound : Sound rules_ raw s) (hl : step redis rules_ s l = some s') {final : Requests V ι}
    (hrest : exec (step redis rules_) s' ls = some final)
    : Family.Unnoticed (Threads.advance (answer redis rules_)) (remains rules_ rule final)
        (Same rule) s l := by
  refine Family.unnoticed_of_step hl ?_
  intro hout v hsame
  obtain ⟨htracked, hinput⟩ := hsound l.1
  have hend := exec_invariant _ (fun _ _ _ hs hl => sound_step hs hl) (sound_step hsound hl) hrest l.1
  have hleft : LeftOut rules_ rule (final.party l.1) := by
    simpa [remains] using hout
  obtain ⟨store, t, hadvance, rfl⟩ := Family.step_eq_some.mp hl
  have hstore : Same rule s.shared store := by
    apply same_of_advance hclean (hclean rule hrule) htracked hadvance
    rcases hleft with hother | ⟨text, htext, hrejects⟩
    . left
      rw [hinput, ← hend.2]
      exact hother
    . right
      intro e he hlimiter
      obtain ⟨φ, _, _, hpast⟩ := hend.1
      have hbefore := history_prefix_of_exec hrest l.1
      dsimp only at hbefore
      rw [Function.update_self] at hbefore
      exact hpast.not_rejects e (hbefore.subset he) hlimiter text htext hrejects
  exact hstore.symm.trans hsame

theorem consistent_of_exec (hsound : Sound rules_ raw s) (hl : step redis rules_ s l = some s')
    {final : Requests V ι} (hrest : exec (step redis rules_) s' ls = some final)
    : Family.Consistent (Threads.advance (answer redis rules_)) (remains rules_ rule final)
        (Same rule) Alike s l := by
  refine Family.consistent_of_step hl ?_
  intro hkept store v hsame halike
  obtain ⟨htracked, hinput⟩ := hsound l.1
  have hend := exec_invariant _ (fun _ _ _ hs hl => sound_step hs hl) (sound_step hsound hl) hrest l.1
  have hkept : ¬LeftOut rules_ rule (final.party l.1) := by
    simpa [remains] using hkept
  obtain ⟨store', t, hadvance, rfl⟩ := Family.step_eq_some.mp hl
  dsimp only
  rw [Function.update_self]
  apply alike_of_advance htracked hadvance _ hsame halike
  intro other hother
  by_contra hne
  rw [hinput, ← hend.2] at hother
  exact hkept (.inl ⟨other, hother, hne⟩)

/--
For every rule, the requests that remain are answered as before when those of other patterns and those
answered 400, 404 or 401 are left out of a run. No two keys of the limiters and of the tokens collide.
-/
theorem limits_isolated (redis : KeyedRedis V) (hclean : ∀ r ∈ rules_, 0 ∉ r.pathPattern)
    (hrule : rule ∈ rules_) (store : KeyedRedis.Store V) (raw : ι → Bytes) {ls : List (Label ι)}
    {s : Requests V ι} (h : exec (step redis rules_) (arrived store raw) ls = some s)
    : KeysSeparate ∧
        ∃ u, exec (step redis rules_) (arrived store raw)
            (ls.filter fun l => ¬LeftOut rules_ rule (s.party l.1)) = some u ∧
          ∀ name, ¬LeftOut rules_ rule (s.party name) →
            answers (u.party name).history = answers (s.party name).history := by
  refine ⟨keysSeparate, ?_⟩
  have hstart : Sound rules_ raw (arrived store raw) := fun name => ⟨tracked_arrived (raw name), rfl⟩
  have halike : Family.Alike (remains rules_ rule s) (Same rule) Alike (arrived store raw)
      (arrived store raw) := ⟨fun _ _ => rfl, fun _ _ => .inl rfl⟩
  have hmeets : Meets (step redis rules_) (fun t l =>
      Family.Unnoticed (Threads.advance (answer redis rules_)) (remains rules_ rule s) (Same rule) t l ∧
        Family.Consistent (Threads.advance (answer redis rules_)) (remains rules_ rule s) (Same rule)
          Alike t l) (arrived store raw) ls := by
    apply meets_of_exec _ _ (fun _ _ _ hs hl => sound_step hs hl) hstart h
    intro _ _ _ _ hs hl hrest
    exact ⟨unnoticed_of_exec hclean hrule hs hl hrest, consistent_of_exec hs hl hrest⟩
  obtain ⟨u, hu, hend⟩ := Family.exec_filter halike hmeets h
  refine ⟨u, hu, ?_⟩
  intro name hkept
  rcases hend.2 name (by simpa [remains] using hkept) with heq | ⟨_, _, heq⟩
  . rw [heq]
  . exact heq.symm

end Runs

section Witness

inductive Value where
  | missing
  | bucket (b : Bucket)
  | string (s : Bytes)
  | number (n : Int)
  | entries (n : Nat)
  deriving DecidableEq

def wrongType : RedisReply := .error (Bytes.ofAscii "WRONGTYPE")

def scripted (capacity rate now : Int) (b : Option Bucket) : RedisReply × Value :=
  let result := tokenBucketLuaScript capacity rate b now
  (.integer result.reply, .bucket result.bucket)

def plainRedis : KeyedRedis Value where
  apply
    | .eval _ capacity rate now, _, .missing => scripted capacity rate now none
    | .eval _ capacity rate now, _, .bucket b => scripted capacity rate now (some b)
    | .get _, _, .missing => (.nil, .missing)
    | .get _, _, .string s => (.string s, .string s)
    | .get _, _, .number n => (.string (Bytes.ofInt n), .number n)
    | .incr _, _, .missing => (.integer 1, .number 1)
    | .incr _, _, .number n => (.integer (n + 1), .number (n + 1))
    | .expire _ _, _, .missing => (.integer 0, .missing)
    | .expire _ _, _, v => (.integer 1, v)
    | .xadd _, _, .missing => (.string (Bytes.ofNat 1), .entries 1)
    | .xadd _, _, .entries n => (.string (Bytes.ofNat (n + 1)), .entries (n + 1))
    | _, _, v => (wrongType, v)
  get_keeps key at' v := by
    cases v with
    | missing | bucket b | string s | number n | entries n => rfl

def twoRoutes : List RouteRule := [⟨Bytes.ofAscii "/a", false, 1⟩, ⟨Bytes.ofAscii "/b", false, 1⟩]

def textOf (name : Nat) : Bytes :=
  if name = 1 then Bytes.ofAscii "GET /b HTTP/1.1\r\n\r\n" else Bytes.ofAscii "GET /a HTTP/1.1\r\n\r\n"

def passed (name : Nat) : List (Label Nat) :=
  [.go, .time 0, .go, .go, .go, .go, .time 0, .redis 0, .go, .time 0, .go, .redis 0].map (name, ·)

/--
A request to another route between two requests to the first one.
-/
def mixed : List (Label Nat) := passed 0 ++ passed 1 ++ passed 2

theorem limits_isolated_mixed
    : ∃ s, exec (step plainRedis twoRoutes) (arrived (fun _ => .missing) textOf) mixed = some s ∧
        ∃ u, exec (step plainRedis twoRoutes) (arrived (fun _ => .missing) textOf)
            (mixed.filter fun l => ¬LeftOut twoRoutes ⟨Bytes.ofAscii "/a", false, 1⟩ (s.party l.1)) = some u ∧
          ∀ name, ¬LeftOut twoRoutes ⟨Bytes.ofAscii "/a", false, 1⟩ (s.party name) →
            answers (u.party name).history = answers (s.party name).history := by
  have hend := Option.eq_some_of_isSome
    (o := exec (step plainRedis twoRoutes) (arrived (fun _ => .missing) textOf) mixed) (by decide +kernel)
  exact ⟨_, hend, (limits_isolated plainRedis (by decide) (by decide) _ textOf hend).2⟩

end Witness

end Keyed
end Gateway
end LFGateway
