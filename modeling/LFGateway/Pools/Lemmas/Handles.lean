import LFGateway.Pools.Impl.Handles
import LFGateway.Pools.Lemmas.Dropped

/-!
This module contains that no handle of hiredis or of the MySQL client library is used or closed after it
was closed, whatever runs at the same time, and which handles are never closed.
-/

namespace LFGateway
namespace Pools

open Foundation

section Constructors

variable {handle : Nat → Handle} {i : Nat}

theorem initConnections_made (handle : Nat → Handle) (uses errorUses i n : Nat) (makings : List Making)
    : initConnections handle uses errorUses i (List.replicate n .made ++ makings)
        =
      initConnections handle uses errorUses i (List.replicate n .made) ++
        initConnections handle uses errorUses (i + n) makings := by
  induction n generalizing i with
  | zero => rfl
  | succ n ih =>
    rw [List.replicate_succ, List.cons_append, initConnections, initConnections, ih, List.append_assoc,
      Nat.add_right_comm, Nat.add_assoc]

theorem exec_initConnections (lives : Handle → Life) (hinj : handle.Injective)
    (hfresh : ∀ j, i ≤ j → lives (handle j) = .fresh) (uses errorUses n : Nat)
    : ∃ lives', exec touch lives (initConnections handle uses errorUses i (List.replicate n .made))
          = some lives' ∧
        (∀ j, lives' (handle j) = if i ≤ j ∧ j < i + n then .live else lives (handle j)) ∧
        ∀ h, (∀ j, h ≠ handle j) → lives' h = lives h := by
  induction n generalizing i lives with
  | zero =>
    refine ⟨lives, rfl, ?_, fun _ _ => rfl⟩
    intro j
    rw [if_neg (by omega)]
  | succ n ih =>
    have hrest : ∀ j, i + 1 ≤ j → Function.update lives (handle i) .live (handle j) = .fresh := by
      intro j hj
      rw [Function.update_of_ne (hinj.ne (by omega))]
      exact hfresh j (by omega)
    obtain ⟨lives', hexec, hmade, hother⟩ := ih _ hrest
    refine ⟨lives', ?_, ?_, ?_⟩
    . exact (exec_append_eq_some touch).mpr ⟨_, exec_opening (hfresh i le_rfl) uses, hexec⟩
    . intro j
      rw [hmade]
      by_cases heq : j = i
      . rw [heq, if_neg (by omega), if_pos (by omega), Function.update_self]
      . rw [Function.update_of_ne (hinj.ne heq)]
        congr 1
        rw [eq_iff_iff]
        omega
    . intro h hne
      rw [hother h hne, Function.update_of_ne (hne i)]

/--
A constructor leaves open what it has pushed, also when it throws: then nothing closes these any more.
-/
theorem initConnections_open (hinj : handle.Injective) (uses errorUses : Nat) (makings : List Making)
    : Disciplined (initConnections handle uses errorUses 0 makings) ∧
        ∀ j, IsOpen (initConnections handle uses errorUses 0 makings) (handle j)
          ↔
        j < (makings.takeWhile (· = .made)).length := by
  obtain ⟨n, hn⟩ : ∃ n, makings.takeWhile (· = .made) = List.replicate n .made :=
    ⟨_, List.eq_replicate_of_mem fun making hmem => by simpa using List.mem_takeWhile_imp hmem⟩
  have hsplit : makings = List.replicate n .made ++ makings.dropWhile (· = .made) := by
    rw [← hn, List.takeWhile_append_dropWhile]
  obtain ⟨lives, hexec, hmade, _⟩ :=
    exec_initConnections (fun _ => .fresh) hinj (fun j (_ : 0 ≤ j) => rfl) uses errorUses n
  have hlive : ∀ j, lives (handle j) = .live ↔ j < n := by
    intro j
    rw [hmade]
    split <;> simp <;> omega
  have hfresh : lives (handle n) = .fresh := by
    rw [hmade, if_neg (by omega)]
  rw [hn, List.length_replicate, hsplit, initConnections_made, Nat.zero_add]
  generalize hrest : makings.dropWhile (· = .made) = rest
  match rest with
  | [] =>
    rw [initConnections, List.append_nil]
    exact ⟨Lived.disciplined hexec, fun j => (Lived.isOpen_iff hexec _).trans (hlive j)⟩
  | .made :: _ =>
    have hhead := List.head?_dropWhile_not (· = Making.made) makings
    rw [hrest] at hhead
    simp at hhead
  | .null :: _ =>
    rw [initConnections, List.append_nil]
    exact ⟨Lived.disciplined hexec, fun j => (Lived.isOpen_iff hexec _).trans (hlive j)⟩
  | .error :: _ =>
    have herror : exec touch lives (opening (handle n) errorUses ++ [closed (handle n)])
        = some (Function.update (Function.update lives (handle n) .live) (handle n) .over) :=
      (exec_append_eq_some touch).mpr ⟨_, exec_opening hfresh errorUses,
        (exec_cons_eq_some touch).mpr ⟨_, touch_closed (Function.update_self _ _ _), rfl⟩⟩
    have hlived := Lived.append hexec herror
    rw [initConnections]
    refine ⟨hlived.disciplined, fun j => (hlived.isOpen_iff _).trans ?_⟩
    rw [Function.update_idem]
    by_cases heq : j = n
    . rw [heq, Function.update_self]
      simp
    . rw [Function.update_of_ne (hinj.ne heq)]
      exact hlive j

end Constructors

def conns (s : Calls) : List Conn := s.shared.mysql.pool_ ++ s.threads.flatMap fun t => connsHeldBy t.history

/--
What has become of all handles: a connection that is neither in the pool nor in the hands of a call was
closed, and one that failed never is.
-/
def livesOf (redisSize made failures : Nat) (conns : List Conn) : Handle → Life
  | .context ctx => if ctx < redisSize then .live else .fresh
  | .conn c => if made ≤ c then .fresh else if c ∈ conns then .live else .over
  | .failed k => if k < failures then .live else .fresh

section Lives

variable {redisSize made failures : Nat} {held rest conns conns' : List Conn} {c : Conn}

theorem livesOf_congr (h : ∀ c, c ∈ conns ↔ c ∈ conns')
    : livesOf redisSize made failures conns = livesOf redisSize made failures conns' := by
  funext handle
  cases handle with
  | context | failed => rfl
  | conn c => simp only [livesOf, h]

theorem livesOf_conn (redisSize failures : Nat) (hmem : c ∈ conns) (hlt : c < made)
    : livesOf redisSize made failures conns (.conn c) = .live := by
  rw [livesOf, if_neg (Nat.not_le.mpr hlt), if_pos hmem]

theorem livesOf_close (hnot : c ∉ rest) (hlt : c < made)
    : Function.update (livesOf redisSize made failures (c :: rest)) (.conn c) .over
        =
      livesOf redisSize made failures rest := by
  funext handle
  by_cases heq : handle = .conn c
  . rw [heq, Function.update_self, livesOf, if_neg (Nat.not_le.mpr hlt), if_neg hnot]
  . rw [Function.update_of_ne heq]
    cases handle with
    | context | failed => rfl
    | conn c' =>
      have hne : c' ≠ c := fun h => heq (by rw [h])
      simp [livesOf, hne]

theorem livesOf_make
    : Function.update (livesOf redisSize made failures conns) (.conn made) .live
        =
      livesOf redisSize (made + 1) failures (made :: conns) := by
  funext handle
  by_cases heq : handle = .conn made
  . rw [heq, Function.update_self, livesOf, if_neg (Nat.not_succ_le_self made), if_pos List.mem_cons_self]
  . rw [Function.update_of_ne heq]
    cases handle with
    | context | failed => rfl
    | conn c =>
      have hne : c ≠ made := fun h => heq (by rw [h])
      have hle : made ≤ c ↔ made + 1 ≤ c :=
        ⟨fun h => Nat.lt_of_le_of_ne h (Ne.symm hne), Nat.le_of_succ_le⟩
      simp [livesOf, hne, hle]

theorem livesOf_fail
    : Function.update (livesOf redisSize made failures conns) (.failed failures) .live
        =
      livesOf redisSize made (failures + 1) conns := by
  funext handle
  by_cases heq : handle = .failed failures
  . rw [heq, Function.update_self, livesOf, if_pos (by omega)]
  . rw [Function.update_of_ne heq]
    cases handle with
    | context | conn => rfl
    | failed k =>
      have hne : k ≠ failures := fun h => heq (by rw [h])
      have hlt : k < failures ↔ k < failures + 1 := by omega
      simp only [livesOf, hlt]

structure Apart (made : Nat) (conns : List Conn) : Prop where
  nodup : conns.Nodup
  lt : ∀ c ∈ conns, c < made

theorem Apart.of_perm (h : Apart made conns) (hperm : conns'.Perm conns) : Apart made conns' :=
  ⟨hperm.nodup_iff.mpr h.nodup, fun c hc => h.lt c (hperm.mem_iff.mp hc)⟩

theorem Apart.tail (h : Apart made (c :: conns)) : Apart made conns :=
  ⟨(List.nodup_cons.mp h.nodup).2, fun c' hc' => h.lt c' (List.mem_cons_of_mem _ hc')⟩

theorem Apart.make (h : Apart made conns) : Apart (made + 1) (made :: conns) := by
  constructor
  . rw [List.nodup_cons]
    exact ⟨fun hmem => Nat.lt_irrefl made (h.lt made hmem), h.nodup⟩
  . intro c hc
    rcases List.mem_cons.mp hc with rfl | hmem
    . exact Nat.lt_succ_self c
    . exact Nat.lt_succ_of_lt (h.lt c hmem)

theorem exec_discard (h : Apart made (c :: rest))
    : exec touch (livesOf redisSize made failures (c :: rest)) [used (.conn c), closed (.conn c)]
        =
      some (livesOf redisSize made failures rest) := by
  have hlt := h.lt c List.mem_cons_self
  have hlive : livesOf redisSize made failures (c :: rest) (.conn c) = .live :=
    livesOf_conn redisSize failures List.mem_cons_self hlt
  rw [← livesOf_close (List.nodup_cons.mp h.nodup).1 hlt]
  exact (exec_cons_eq_some touch).mpr ⟨_, touch_used hlive,
    (exec_cons_eq_some touch).mpr ⟨_, touch_closed hlive, rfl⟩⟩

theorem exec_acquiring (redisSize failures : Nat) {pool pool' : MySQLPool} {ending : MySQLPool.Ending} {conn : Option Conn}
    (h : pool.acquire ending = some (conn, pool')) (hapart : Apart pool.made (pool.pool_ ++ held))
    : exec touch (livesOf redisSize pool.made failures (pool.pool_ ++ held)) (acquiring pool failures ending)
          = some (livesOf redisSize pool'.made
              (failures + (acquiring pool failures ending).countP (· = ⟨.failed failures, .opened⟩))
              (pool'.pool_ ++ (held ++ conn.toList)))
        ∧
      Apart pool'.made (pool'.pool_ ++ (held ++ conn.toList)) := by
  unfold MySQLPool.acquire at h
  split at h
  . rw [Option.some.injEq, Prod.mk.injEq] at h
    obtain ⟨rfl, rfl⟩ := h
    simpa [acquiring] using hapart
  . contradiction
  . contradiction
  . next c rest hpool =>
    rw [Option.some.injEq, Prod.mk.injEq] at h
    obtain ⟨rfl, rfl⟩ := h
    rw [hpool, List.cons_append] at hapart
    have hperm : (rest ++ (held ++ [c])).Perm (c :: (rest ++ held)) := by
      rw [← List.append_assoc]
      exact List.perm_append_singleton c (rest ++ held)
    refine ⟨?_, hapart.of_perm hperm⟩
    have hlive : livesOf redisSize pool.made failures (c :: (rest ++ held)) (.conn c) = .live :=
      livesOf_conn redisSize failures List.mem_cons_self (hapart.lt c List.mem_cons_self)
    have hused : exec touch (livesOf redisSize pool.made failures (c :: (rest ++ held)))
        [used (.conn c), used (.conn c)] = some (livesOf redisSize pool.made failures (c :: (rest ++ held))) :=
      exec_used (by simpa using hlive)
    simpa [acquiring, hpool, livesOf_congr fun c => hperm.mem_iff] using hused
  . next c rest hpool =>
    rw [Option.some.injEq, Prod.mk.injEq] at h
    obtain ⟨rfl, rfl⟩ := h
    rw [hpool, List.cons_append] at hapart
    have hperm : (rest ++ (held ++ [pool.made])).Perm (pool.made :: (rest ++ held)) := by
      rw [← List.append_assoc]
      exact List.perm_append_singleton pool.made (rest ++ held)
    refine ⟨?_, hapart.tail.make.of_perm hperm⟩
    have hfresh : livesOf redisSize pool.made failures (rest ++ held) (.conn pool.made) = .fresh :=
      if_pos le_rfl
    have hopened := exec_opening hfresh 2
    rw [livesOf_make] at hopened
    have hreplaced := (exec_append_eq_some touch).mpr ⟨_, exec_discard hapart, hopened⟩
    simpa [acquiring, hpool, opening, livesOf_congr fun c => hperm.mem_iff] using hreplaced
  . next c rest hpool =>
    rw [Option.some.injEq, Prod.mk.injEq] at h
    obtain ⟨rfl, rfl⟩ := h
    rw [hpool, List.cons_append] at hapart
    refine ⟨?_, by simpa using hapart.tail⟩
    simpa [acquiring, hpool] using exec_discard hapart
  . next c rest hpool =>
    rw [Option.some.injEq, Prod.mk.injEq] at h
    obtain ⟨rfl, rfl⟩ := h
    rw [hpool, List.cons_append] at hapart
    refine ⟨?_, by simpa using hapart.tail⟩
    have hfresh : livesOf redisSize pool.made failures (rest ++ held) (.failed failures) = .fresh :=
      if_neg (Nat.lt_irrefl failures)
    have hopened := exec_opening hfresh 1
    rw [livesOf_fail] at hopened
    have hfailed := (exec_append_eq_some touch).mpr ⟨_, exec_discard hapart, hopened⟩
    simpa [acquiring, hpool, opening] using hfailed

end Lives

theorem lived_constructed (redisSize mysqlSize : Nat)
    : Lived (constructed redisSize mysqlSize) (livesOf redisSize mysqlSize 0 (List.range mysqlSize)) := by
  have hconn_injective : Handle.conn.Injective := fun _ _ h => Handle.conn.inj h
  have hcontext_injective : Handle.context.Injective := fun _ _ h => Handle.context.inj h
  obtain ⟨lives, hmysql, hconn, hother⟩ :=
    exec_initConnections (fun _ => .fresh) hconn_injective (fun j (_ : 0 ≤ j) => rfl) 4 2 mysqlSize
  have hfresh : ∀ ctx, lives (.context ctx) = .fresh := fun ctx => hother _ (by simp)
  obtain ⟨lives', hredis, hcontext, hrest⟩ :=
    exec_initConnections lives hcontext_injective (fun j (_ : 0 ≤ j) => hfresh j) 1 0 redisSize
  have heq : lives' = livesOf redisSize mysqlSize 0 (List.range mysqlSize) := by
    funext handle
    cases handle with
    | context ctx => simp [livesOf, hcontext, hfresh]
    | conn c =>
      rw [hrest _ (by simp), hconn]
      by_cases hlt : c < mysqlSize
      . rw [if_pos (by simpa using hlt), livesOf_conn redisSize 0 (List.mem_range.mpr hlt) hlt]
      . rw [if_neg (by simpa using hlt), livesOf, if_pos (Nat.not_lt.mp hlt)]
    | failed k =>
      rw [hrest _ (by simp), hother _ (by simp)]
      rfl
  rw [← heq]
  exact Lived.append hmysql hredis

section Step

variable {redisSize i : Nat} {s s' : Traced} {calls : Calls} {t t' : Running} {c : Conn} {ctx : Context}
  {o : PoolOp} {next : o.Reply → PoolProg Unit} {choice : Choice} {r : o.Reply} {shared : Shared}

theorem Phased.phase (h : Phased t) (hnow : t.now = .op o next) (r : o.Reply)
    : ∃ φ φ', heldBy t.history = φ.redis.toList ∧ connsHeldBy t.history = φ.mysql.toList ∧
        holding φ o r = some φ' := by
  obtain ⟨φ, hreturnable, hredis, hmysql⟩ := h
  rw [hnow] at hreturnable
  obtain ⟨φ', hφ', _⟩ := hreturnable r
  exact ⟨φ, φ', hredis, hmysql, hφ'⟩

theorem Phased.mem_heldBy (h : Phased t) {cmd : RedisCmd} (ho : o = .redisCommand ctx cmd)
    (hnow : t.now = .op o next) (r : o.Reply) : ctx ∈ heldBy t.history := by
  obtain ⟨⟨redis, mysql⟩, φ', hredis, _, hφ'⟩ := h.phase hnow r
  subst ho
  rw [hredis]
  cases redis with
  | none => simp [holding] at hφ'
  | some ctx' =>
    rcases holding_of_redis hφ' with ⟨heq, _⟩ | ⟨_, heq, _⟩
    . contradiction
    . rw [PoolOp.redisCommand.injEq] at heq
      simp [heq.1]

theorem Phased.connsHeldBy_eq (h : Phased t)
    (ho : (∃ query, o = .mysqlQuery c query) ∨ o = .mysqlStoreResult c ∨ o = .mysqlRelease c)
    (hnow : t.now = .op o next) (r : o.Reply) : connsHeldBy t.history = [c] := by
  obtain ⟨⟨redis, mysql⟩, φ', _, hmysql, hφ'⟩ := h.phase hnow r
  rw [hmysql]
  obtain ⟨query, rfl⟩ | rfl | rfl := ho
  all_goals
    cases redis with
    | some ctx => simp [holding] at hφ'
    | none =>
      cases mysql with
      | none => simp [holding] at hφ'
      | some c' =>
        simp only [holding, Option.ite_none_right_eq_some] at hφ'
        simp [hφ'.1]

theorem mem_conns (ht : t ∈ calls.threads) (hmem : c ∈ connsHeldBy t.history) : c ∈ conns calls :=
  List.mem_append_right _ (List.mem_flatMap.mpr ⟨t, ht, hmem⟩)

theorem Inv.lt_of_mem_heldBy (h : Inv redisSize calls) (ht : t ∈ calls.threads)
    (hmem : ctx ∈ heldBy t.history) : ctx < redisSize := by
  have hconserved := h.conserved.mem_iff (a := ctx)
  rw [List.mem_range, List.mem_append, List.mem_flatMap] at hconserved
  exact hconserved.mp (.inr ⟨t, ht, hmem⟩)

structure HandleInv (redisSize : Nat) (s : Traced) : Prop where
  inv : Inv redisSize s.calls
  apart : Apart s.calls.shared.mysql.made (conns s.calls)
  lived : Lived s.log (livesOf redisSize s.calls.shared.mysql.made s.failures (conns s.calls))

theorem handleInv_init (redisSize mysqlSize : Nat) : HandleInv redisSize (Traced.init redisSize mysqlSize) := by
  have hconns : conns (init redisSize mysqlSize) = List.range mysqlSize := by
    simp [conns, init, MySQLPool.new]
  refine ⟨inv_init redisSize mysqlSize, ?_, ?_⟩
  . rw [Traced.init, hconns]
    exact ⟨List.nodup_range, fun c hc => List.mem_range.mp hc⟩
  . rw [Traced.init, hconns]
    exact lived_constructed redisSize mysqlSize

def HandledBy (redisSize : Nat) (s : Traced) (i : Nat) (t' : Running) (shared : Shared)
    (log : List (Touch Handle)) : Prop :=
  exec touch (livesOf redisSize s.calls.shared.mysql.made s.failures (conns s.calls)) log
      = some (livesOf redisSize shared.mysql.made
          (s.failures + log.countP (· = ⟨.failed s.failures, .opened⟩))
          (conns ⟨shared, s.calls.threads.set i t'⟩))
    ∧
  Apart shared.mysql.made (conns ⟨shared, s.calls.threads.set i t'⟩)

theorem HandleInv.handledBy_used (h : HandleInv redisSize s) (ht : s.calls.threads[i]? = some t)
    (hmysql : shared.mysql = s.calls.shared.mysql) (hheld : connsHeldBy t'.history = connsHeldBy t.history)
    {log : List (Touch Handle)} (hlog : ∀ touch ∈ log, touch.access = .used ∧
      livesOf redisSize s.calls.shared.mysql.made s.failures (conns s.calls) touch.handle = .live)
    : HandledBy redisSize s i t' shared log := by
  have hconns : conns ⟨shared, s.calls.threads.set i t'⟩ = conns s.calls := by
    rw [conns, conns, hmysql, flatMap_set_of_eq (fun t : Running => connsHeldBy t.history) ht hheld]
  have hcount : log.countP (· = ⟨.failed s.failures, .opened⟩) = 0 := by
    rw [List.countP_eq_zero]
    intro touch hmem heq
    have haccess := (hlog touch hmem).1
    rw [of_decide_eq_true heq] at haccess
    contradiction
  rw [HandledBy, hconns, hcount, hmysql]
  exact ⟨exec_used hlog, h.apart⟩

/--
An operation is done with open handles, and it leaves them as the pool and the calls have them.
-/
theorem HandleInv.handledBy (h : HandleInv redisSize s) (ht : s.calls.threads[i]? = some t)
    (hnow : t.now = .op o next) (hanswer : answer s.calls.shared o choice = some (r, shared))
    (ht' : t'.history = t.history ++ [⟨o, r⟩])
    : HandledBy redisSize s i t' shared (touches s.calls.shared s.failures o choice) := by
  have hmem := List.mem_of_getElem? ht
  have hphased := h.inv.phased t hmem
  have hheld : connsHeldBy (t.history ++ [⟨o, r⟩]) = _ := connsHeldBy_append
  rw [← ht'] at hheld
  cases o with
  | redisAcquire =>
    simp only [answer] at hanswer
    split at hanswer
    . contradiction
    . rw [Option.some.injEq, Prod.mk.injEq] at hanswer
      exact h.handledBy_used ht (by rw [← hanswer.2]) hheld (by simp [touches])
  | redisRelease | swapRules | api =>
    simp only [answer, Option.some.injEq, Prod.mk.injEq] at hanswer
    exact h.handledBy_used ht (by rw [← hanswer.2]) hheld (by simp [touches])
  | redisCommand ctx cmd =>
    simp only [answer, Option.some.injEq, Prod.mk.injEq] at hanswer
    have hlt := h.inv.lt_of_mem_heldBy hmem (hphased.mem_heldBy rfl hnow r)
    have hlive : livesOf redisSize s.calls.shared.mysql.made s.failures (conns s.calls) (.context ctx)
        = .live := if_pos hlt
    exact h.handledBy_used ht (by rw [← hanswer.2]) hheld (by simpa [touches] using hlive)
  | mysqlQuery c query =>
    simp only [answer, Option.some.injEq, Prod.mk.injEq] at hanswer
    have hconn : c ∈ conns s.calls :=
      mem_conns hmem (by rw [hphased.connsHeldBy_eq (.inl ⟨query, rfl⟩) hnow r]; simp)
    have hlive := livesOf_conn redisSize s.failures hconn (h.apart.lt c hconn)
    exact h.handledBy_used ht (by rw [← hanswer.2]) hheld (by simpa [touches] using hlive)
  | mysqlStoreResult c =>
    simp only [answer, Option.some.injEq, Prod.mk.injEq] at hanswer
    have hconn : c ∈ conns s.calls :=
      mem_conns hmem (by rw [hphased.connsHeldBy_eq (.inr (.inl rfl)) hnow r]; simp)
    have hlive := livesOf_conn redisSize s.failures hconn (h.apart.lt c hconn)
    exact h.handledBy_used ht (by rw [← hanswer.2]) hheld (by simpa [touches] using hlive)
  | mysqlAcquire =>
    have hempty : connsHeldBy t.history = [] := by
      by_contra hne
      exact not_asksFor_mysqlAcquire hphased hne ⟨next, hnow⟩
    dsimp only at hheld
    rw [hempty, List.nil_append] at hheld
    have hset := flatMap_set_perm (fun t : Running => connsHeldBy t.history) (b := t') ht
    rw [hempty, List.append_nil, hheld] at hset
    simp only [answer] at hanswer
    split at hanswer
    . next conn mysql hacquire =>
      rw [Option.some.injEq, Prod.mk.injEq] at hanswer
      obtain ⟨rfl, rfl⟩ := hanswer
      have hperm : (conns ⟨{ s.calls.shared with mysql }, s.calls.threads.set i t'⟩).Perm
          (mysql.pool_ ++ ((s.calls.threads.flatMap fun t => connsHeldBy t.history) ++ conn.toList)) :=
        hset.append_left mysql.pool_
      obtain ⟨hexec, hapart⟩ := exec_acquiring redisSize s.failures hacquire h.apart
      refine ⟨?_, hapart.of_perm hperm⟩
      rw [livesOf_congr fun c => hperm.mem_iff]
      exact hexec
    . contradiction
  | mysqlRelease c =>
    simp only [answer, Option.some.injEq, Prod.mk.injEq] at hanswer
    obtain ⟨_, rfl⟩ := hanswer
    have hone := hphased.connsHeldBy_eq (.inr (.inr rfl)) hnow r
    dsimp only at hheld
    rw [hone, List.erase_cons_head] at hheld
    have hset := flatMap_set_perm (fun t : Running => connsHeldBy t.history) (b := t') ht
    rw [hone, hheld, List.append_nil] at hset
    have hperm : (conns ⟨{ s.calls.shared with mysql := s.calls.shared.mysql.release c },
        s.calls.threads.set i t'⟩).Perm (conns s.calls) := by
      rw [conns, conns, MySQLPool.release, List.append_assoc]
      exact (List.perm_append_comm.trans hset).append_left _
    refine ⟨?_, h.apart.of_perm hperm⟩
    rw [livesOf_congr fun c => hperm.mem_iff]
    rfl

theorem HandleInv.step (h : HandleInv redisSize s) {l : Calls.Label} (hl : Traced.step s l = some s')
    : HandleInv redisSize s' := by
  simp only [Traced.step] at hl
  split at hl
  . next calls hcalls =>
    rw [Option.some.injEq] at hl
    subst hl
    have hinv := h.inv.step hcalls
    cases l with
    | start call =>
      rw [Threads.step_start hcalls] at hinv ⊢
      have hconns : conns (s.calls.started call) = conns s.calls := by
        simp [conns, Calls.started, connsHeldBy]
      refine ⟨hinv, ?_, ?_⟩
      . exact hconns ▸ h.apart
      . have hlived := h.lived
        have htouched : s.touched (.start call) = [] := rfl
        rw [← hconns] at hlived
        rw [htouched, List.append_nil]
        exact hlived
    | step i choice =>
      obtain ⟨t, shared, t', ht, hadvance, rfl⟩ := Threads.step_step hcalls
      obtain ⟨o, next, r, hnow, hanswer, rfl⟩ := Threads.advance_eq_some hadvance
      have htouched : s.touched (.step i choice) = touches s.calls.shared s.failures o choice := by
        obtain ⟨input, history, now⟩ := t
        dsimp only at hnow
        subst hnow
        simp only [Traced.touched, Traced.operation, ht]
      have hhandled : HandledBy redisSize s i { t with history := t.history ++ [⟨o, r⟩], now := next r }
          shared _ := h.handledBy ht hnow hanswer rfl
      rw [htouched]
      exact ⟨hinv, hhandled.2, h.lived.append hhandled.1⟩
    | env e => contradiction
  . contradiction

theorem handleInv_exec {mysqlSize : Nat} {ls : List Calls.Label}
    (h : exec Traced.step (Traced.init redisSize mysqlSize) ls = some s) : HandleInv redisSize s :=
  exec_invariant Traced.step (fun _ _ _ hs hl => hs.step hl) (handleInv_init redisSize mysqlSize) h

/--
The log does not keep the calls from anything.
-/
theorem exec_traced {ls : List Calls.Label} (s : Traced) (h : exec Calls.step s.calls ls = some calls)
    : ∃ failures log, exec Traced.step s ls = some ⟨calls, failures, log⟩ := by
  induction ls generalizing s with
  | nil =>
    rw [exec_nil, Option.some.injEq] at h
    exact ⟨s.failures, s.log, by rw [exec_nil, ← h]⟩
  | cons l ls ih =>
    obtain ⟨calls', hl, hls⟩ := (exec_cons_eq_some Calls.step).mp h
    have hstep : ∃ failures log, Traced.step s l = some ⟨calls', failures, log⟩ := by
      simp only [Traced.step, hl]
      exact ⟨_, _, rfl⟩
    obtain ⟨failures', log', hstep⟩ := hstep
    obtain ⟨failures, log, hrest⟩ := ih ⟨calls', failures', log'⟩ hls
    exact ⟨failures, log, (exec_cons_eq_some Traced.step).mpr ⟨_, hstep, hrest⟩⟩

end Step

section End

variable {redisSize : Nat} {s : Traced}

/--
A call that is not over has the handle in its hands, or has ended without a release of it, or
`mysql_real_connect` has failed on it.
-/
def LeftOpen (calls : Calls) (log : List (Touch Handle)) : Handle → Prop
  | .context ctx => ∃ t ∈ calls.threads, ¬Threads.Finished t ∧ ctx ∈ heldBy t.history
  | .conn c =>
    ∃ t ∈ calls.threads, (¬Threads.Finished t ∧ c ∈ connsHeldBy t.history) ∨ (Threads.Finished t ∧ Dropped t c)
  | .failed k => .opened ∈ accesses (.failed k) log

section Held

variable {t : Running} {ok : PoolEvent → Prop}

theorem mem_heldBy_iff_running (hruns : Threads.Runs Call.body ok t) (hphased : Phased t) (ctx : Context)
    : ctx ∈ heldBy t.history ↔ ¬Threads.Finished t ∧ ctx ∈ heldBy t.history := by
  by_cases hfinished : Threads.Finished t
  . rw [(held_of_finished hruns hphased hfinished).1]
    simp
  . exact (and_iff_right hfinished).symm

theorem mem_connsHeldBy_iff_running (hruns : Threads.Runs Call.body ok t) (hphased : Phased t) (c : Conn)
    : c ∈ connsHeldBy t.history
        ↔
      (¬Threads.Finished t ∧ c ∈ connsHeldBy t.history) ∨ (Threads.Finished t ∧ Dropped t c) := by
  by_cases hfinished : Threads.Finished t
  . rw [(held_of_finished hruns hphased hfinished).2]
    simp [hfinished]
  . simp [hfinished]

end Held

theorem mem_and_not_mem_left_iff {l l' : List Nat} (h : (l ++ l').Nodup) (a : Nat)
    : a ∈ l ++ l' ∧ a ∉ l ↔ a ∈ l' := by
  have hdisjoint := (List.nodup_append.mp h).2.2
  rw [List.mem_append]
  constructor
  . rintro ⟨hleft | hright, hnot⟩
    . exact absurd hleft hnot
    . exact hright
  . intro hmem
    exact ⟨.inr hmem, fun hleft => hdisjoint a hleft a hmem rfl⟩

theorem HandleInv.exec_destroyed {ok : PoolEvent → Prop} (h : HandleInv redisSize s)
    (hruns : ∀ t ∈ s.calls.threads, Threads.Runs Call.body ok t)
    : ∃ lives, exec touch (livesOf redisSize s.calls.shared.mysql.made s.failures (conns s.calls))
            (destroyed s.calls.shared) = some lives ∧
        ∀ handle, lives handle = .live ↔ LeftOpen s.calls s.log handle := by
  have hcontexts : (s.calls.shared.redis.pool_ ++ s.calls.threads.flatMap fun t => heldBy t.history).Nodup :=
    h.inv.conserved.nodup_iff.mpr List.nodup_range
  have hcontext : ∀ ctx, ctx ∈ s.calls.shared.redis.pool_ ++
      (s.calls.threads.flatMap fun t => heldBy t.history) ↔ ctx < redisSize := by
    intro ctx
    rw [h.inv.conserved.mem_iff, List.mem_range]
  have hnodup : (s.calls.shared.redis.pool_.map Handle.context ++
      s.calls.shared.mysql.pool_.map Handle.conn).Nodup := by
    rw [List.nodup_append]
    refine ⟨(List.nodup_append.mp hcontexts).1.map fun _ _ h => Handle.context.inj h,
      (List.nodup_append.mp h.apart.nodup).1.map fun _ _ h => Handle.conn.inj h, by simp⟩
  refine ⟨_, exec_closed hnodup ?_, ?_⟩
  . intro handle hmem
    rw [List.mem_append, List.mem_map, List.mem_map] at hmem
    obtain ⟨ctx, hctx, rfl⟩ | ⟨c, hc, rfl⟩ := hmem
    . exact if_pos ((hcontext ctx).mp (List.mem_append_left _ hctx))
    . have hmem := List.mem_append_left (s.calls.threads.flatMap fun t => connsHeldBy t.history) hc
      exact livesOf_conn _ _ hmem (h.apart.lt c hmem)
  . intro handle
    cases handle with
    | context ctx =>
      have hiff := mem_and_not_mem_left_iff hcontexts ctx
      have hrunning : LeftOpen s.calls s.log (.context ctx) ↔ ∃ t ∈ s.calls.threads, ctx ∈ heldBy t.history :=
        exists_congr fun t => and_congr_right fun ht =>
          (mem_heldBy_iff_running (hruns t ht) (h.inv.phased t ht) ctx).symm
      rw [hcontext, List.mem_flatMap] at hiff
      rw [hrunning, ← hiff]
      by_cases hpool : ctx ∈ s.calls.shared.redis.pool_
      . simp [hpool]
      . simp [hpool, livesOf]
    | conn c =>
      have hiff := mem_and_not_mem_left_iff h.apart.nodup c
      have hrunning : LeftOpen s.calls s.log (.conn c) ↔ ∃ t ∈ s.calls.threads, c ∈ connsHeldBy t.history :=
        exists_congr fun t => and_congr_right fun ht =>
          (mem_connsHeldBy_iff_running (hruns t ht) (h.inv.phased t ht) c).symm
      rw [List.mem_flatMap] at hiff
      rw [hrunning, ← hiff]
      by_cases hpool : c ∈ s.calls.shared.mysql.pool_
      . simp [hpool]
      . rw [if_neg (by simp [hpool])]
        constructor
        . intro hlive
          refine ⟨?_, hpool⟩
          by_contra hnot
          rw [livesOf, conns, if_neg hnot] at hlive
          split at hlive <;> contradiction
        . rintro ⟨hmem, _⟩
          exact livesOf_conn _ _ hmem (h.apart.lt c hmem)
    | failed k =>
      rw [LeftOpen, h.lived.opened_iff]
      simp [livesOf]

/--
Whatever runs at the same time, with whatever outcomes: up to the destructors of the pools no handle is
used or closed after it was closed, and behind them the only handles still open are those of calls that
are not over, the connections that a call has dropped, and those on which `mysql_real_connect` has failed
in `acquire`. What a call does behind the destructors is not part of it.
-/
theorem handles_disciplined {redisSize mysqlSize : Nat} {ls : List Calls.Label} {calls : Calls}
    (h : exec Calls.step (init redisSize mysqlSize) ls = some calls)
    : ∃ failures log,
        exec Traced.step (Traced.init redisSize mysqlSize) ls = some ⟨calls, failures, log⟩ ∧
          Disciplined (log ++ destroyed calls.shared) ∧
          ∀ handle, IsOpen (log ++ destroyed calls.shared) handle ↔ LeftOpen calls log handle := by
  obtain ⟨failures, log, hexec⟩ := exec_traced (Traced.init redisSize mysqlSize) h
  have hinv := handleInv_exec hexec
  have hruns : ∀ t ∈ calls.threads, Threads.Runs Call.body (fun _ => True) t :=
    Threads.runs_exec (fun _ _ _ _ _ _ => trivial) h
  obtain ⟨lives, hdestroyed, hlives⟩ := hinv.exec_destroyed hruns
  have hlived := hinv.lived.append hdestroyed
  exact ⟨failures, log, hexec, hlived.disciplined, fun handle => (hlived.isOpen_iff handle).trans (hlives handle)⟩

def accepting : Choice where
  reply
    | .mysqlQuery _ _ => true
    | o => silence.reply o
  ending := .healthy

/--
A listing whose `acquire` finds a dead connection and a dead server, one that drops its connection, and
one that waits for its rows.
-/
def deadConnection : List Calls.Label := [
  .start .routeList,
  .start .routeList,
  .start .routeList,
  .step 0 { silence with ending := .connectFailed },
  .step 1 accepting,
  .step 1 accepting,
  .step 1 accepting,
  .step 2 accepting,
  .step 2 accepting
]

theorem handles_disciplined_deadConnection
    : ∃ calls failures log, exec Calls.step (init 1 3) deadConnection = some calls ∧
        exec Traced.step (Traced.init 1 3) deadConnection = some ⟨calls, failures, log⟩ ∧
        Disciplined (log ++ destroyed calls.shared) ∧
        IsOpen (log ++ destroyed calls.shared) (.conn 1) ∧
        IsOpen (log ++ destroyed calls.shared) (.conn 2) ∧
        ¬IsOpen (log ++ destroyed calls.shared) (.context 0) := by
  have hend := Option.eq_some_of_isSome (o := exec Calls.step (init 1 3) deadConnection) (by decide)
  obtain ⟨failures, log, htraced, hdisciplined, hopen⟩ := handles_disciplined hend
  refine ⟨_, failures, log, hend, htraced, hdisciplined, (hopen _).mpr ?_, (hopen _).mpr ?_, ?_⟩
  . exact ⟨_, List.mem_of_getElem? (i := 1) rfl, .inr ⟨⟨(), rfl⟩, none, by simp [accepting, silence], trivial⟩⟩
  . exact ⟨_, List.mem_of_getElem? (i := 2) rfl, .inl ⟨by decide, by decide⟩⟩
  . rw [hopen]
    rintro ⟨t, ht, _, hheld⟩
    have hnone : ∀ t ∈ ((exec Calls.step (init 1 3) deadConnection).get (by decide)).threads,
        heldBy t.history = [] := by decide
    rw [hnone t ht] at hheld
    contradiction

end End

end Pools
end LFGateway
