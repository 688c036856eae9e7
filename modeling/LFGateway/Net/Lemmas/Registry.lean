import LFGateway.Net.Lemmas.Lifecycle

/-!
This module contains the names of the connections and the maps of the servers: no two connections of
a server have the same name, so that erasing by name removes the one connection that closed.
-/

namespace LFGateway

open Foundation

namespace TcpServer

theorem connName_eq (s : ServerId) {id : Nat} (h : id < 10 ^ 10)
    : connName s.name id = s.name ++ (Bytes.ofAscii "-" ++ Bytes.ofNat id) := by
  have hlength := Bytes.length_ofNat_le (by decide) h
  have hid : Bytes.ofInt (id : Int) = Bytes.ofNat id := rfl
  have hname : s.name.cStr = s.name ∧ s.name.length ≤ 10 := by
    cases s <;> decide
  have hdash : (Bytes.ofAscii "-").length = 1 := by decide
  unfold connName
  rw [hid, hname.1, List.append_assoc]
  apply List.take_of_length_le
  rw [List.length_append, List.length_append, hdash]
  omega

/--
Neither `%d` nor the 64 bytes of the buffer make two names of a server equal.
-/
theorem connName_injective (s : ServerId) {id id' : Nat} (h : id < 10 ^ 10) (h' : id' < 10 ^ 10)
    (heq : connName s.name id = connName s.name id') : id = id' := by
  rw [connName_eq s h, connName_eq s h'] at heq
  rw [List.append_cancel_left_eq, List.append_cancel_left_eq] at heq
  exact Bytes.ofNat_injective heq

theorem incrInt_of_lt {n : Int} (h : n < 2 ^ 31 - 1) : incrInt n = n + 1 := by
  unfold incrInt
  rw [if_neg (ne_of_lt h)]

end TcpServer

namespace Reactor

variable {r r' : Reactor} {c : Nat} {fd : Int} {nonempty : Prop} {s : ServerId}

def Named (r : Reactor) (c : Nat) : Prop :=
  ∃ id : Nat, 1 ≤ id ∧ (id : Int) < (r.server (r.conn c).server).nextConnId_ ∧
    (r.conn c).name_ = TcpServer.connName (r.conn c).server.name id

/--
The maps of the servers, and how many names they have given out while the counter can still grow.
-/
structure Registry (r : Reactor) : Prop where
  serverName : ∀ s, (r.server s).name_ = s.name
  nextId : r.created + 1 < 2 ^ 31 → ∀ s, 1 ≤ (r.server s).nextConnId_ ∧
    (r.server s).nextConnId_ ≤ r.created + 1
  named : r.created + 1 < 2 ^ 31 → ∀ c < r.created, Named r c
  distinct : ∀ c < r.created, ∀ c' < r.created, (r.conn c).server = (r.conn c').server →
    (r.conn c).name_ = (r.conn c').name_ → c = c'
  mem : ∀ s name c, (name, c) ∈ (r.server s).connections_ ↔
    c < r.created ∧ (r.conn c).server = s ∧ (r.conn c).name_ = name ∧ 0 ≤ (r.conn c).sockfd_
  keys : ∀ s, ((r.server s).connections_.map Prod.fst).Nodup

theorem Registry.congr (h : Registry r) (hcreated : r'.created = r.created)
    (hserver : r'.server = r.server)
    (hconn : ∀ c < r.created, (r'.conn c).server = (r.conn c).server ∧
      (r'.conn c).name_ = (r.conn c).name_ ∧ (r'.conn c).sockfd_ = (r.conn c).sockfd_)
    : Registry r' := by
  constructor
  . rw [hserver]
    exact h.serverName
  . rw [hcreated, hserver]
    exact h.nextId
  . intro hlt c hc
    rw [hcreated] at hlt hc
    obtain ⟨howner, hname, _⟩ := hconn c hc
    have hnamed := h.named hlt c hc
    unfold Named at hnamed ⊢
    rw [howner, hname, hserver]
    exact hnamed
  . intro c hc c' hc' howner hname
    rw [hcreated] at hc hc'
    rw [(hconn c hc).1, (hconn c' hc').1] at howner
    rw [(hconn c hc).2.1, (hconn c' hc').2.1] at hname
    exact h.distinct c hc c' hc' howner hname
  . intro s name c
    rw [hserver, h.mem s name c, hcreated]
    apply and_congr_right
    intro hc
    obtain ⟨howner, hname, hsockfd⟩ := hconn c hc
    rw [howner, hname, hsockfd]
  . rw [hserver]
    exact h.keys

theorem Registry.late (h : Registry r) (hlate : Late c r r') : Registry r' := by
  apply h.congr hlate.created hlate.server
  intro c' _
  by_cases heq : c' = c
  . subst heq
    obtain ⟨revents, hself⟩ := hlate.self
    rw [hself]
    exact ⟨rfl, rfl, rfl⟩
  . rw [hlate.conn c' heq]
    exact ⟨rfl, rfl, rfl⟩

theorem Registry.stays (h : Registry r) (hopen : Open c fd r) (hframe : Frame c fd r r')
    (hopen' : Open c fd r') (hserver : r'.server = r.server) : Registry r' := by
  apply h.congr hframe.created hserver
  intro c' _
  by_cases heq : c' = c
  . subst heq
    exact ⟨hframe.owner, hframe.name, by rw [hopen'.sockfd, hopen.sockfd]⟩
  . rw [hframe.conn c' heq]
    exact ⟨rfl, rfl, rfl⟩

section Erased

theorem erased_of_ne (hne : s ≠ (r.conn c).server) : erased r c s = r.server s :=
  Function.update_of_ne hne _ _

theorem erased_self
    : erased r c (r.conn c).server
        =
      { r.server (r.conn c).server with
        connections_ := (r.server (r.conn c).server).connections_.filter
          fun entry => entry.1 ≠ (r.conn c).name_ } := by
  simp [erased]

theorem erased_name (s : ServerId) : (erased r c s).name_ = (r.server s).name_ := by
  by_cases heq : s = (r.conn c).server
  . subst heq
    rw [erased_self]
  . rw [erased_of_ne heq]

theorem erased_nextConnId (s : ServerId) : (erased r c s).nextConnId_ = (r.server s).nextConnId_ := by
  by_cases heq : s = (r.conn c).server
  . subst heq
    rw [erased_self]
  . rw [erased_of_ne heq]

theorem Registry.mem_erased (h : Registry r) (hc : c < r.created) {name : Bytes} {c' : Nat}
    : (name, c') ∈ (erased r c s).connections_ ↔ (name, c') ∈ (r.server s).connections_ ∧ c' ≠ c := by
  by_cases heq : s = (r.conn c).server
  . subst heq
    rw [erased_self, List.mem_filter, decide_eq_true_eq]
    apply and_congr_right
    intro hmem
    obtain ⟨hc', howner, hname, _⟩ := (h.mem _ _ _).mp hmem
    apply not_congr
    constructor
    . intro hsame
      exact h.distinct c' hc' c hc howner (by rw [hname, ← hsame])
    . intro hsame
      rw [← hname, hsame]
  . rw [erased_of_ne heq, iff_self_and]
    intro hmem hsame
    obtain ⟨_, howner, _⟩ := (h.mem _ _ _).mp hmem
    rw [hsame] at howner
    exact heq howner.symm

end Erased

theorem Registry.closes (h : Registry r) (hc : c < r.created) (hframe : Frame c fd r r')
    (hclosed : Closed c r') (hserver : r'.server = erased r c) : Registry r' := by
  have howner : ∀ c', (r'.conn c').server = (r.conn c').server := by
    intro c'
    by_cases heq : c' = c
    . rw [heq, hframe.owner]
    . rw [hframe.conn c' heq]
  have hname : ∀ c', (r'.conn c').name_ = (r.conn c').name_ := by
    intro c'
    by_cases heq : c' = c
    . rw [heq, hframe.name]
    . rw [hframe.conn c' heq]
  constructor
  . intro s
    rw [hserver, erased_name, h.serverName]
  . intro hlt s
    rw [hframe.created] at hlt ⊢
    rw [hserver, erased_nextConnId]
    exact h.nextId hlt s
  . intro hlt c' hc'
    rw [hframe.created] at hlt hc'
    unfold Named
    rw [howner, hname, hserver, erased_nextConnId]
    exact h.named hlt c' hc'
  . intro c₁ hc₁ c₂ hc₂ howner' hname'
    rw [hframe.created] at hc₁ hc₂
    rw [howner, howner] at howner'
    rw [hname, hname] at hname'
    exact h.distinct c₁ hc₁ c₂ hc₂ howner' hname'
  . intro s name c'
    rw [hserver, h.mem_erased hc, h.mem, hframe.created, howner, hname]
    by_cases heq : c' = c
    . subst heq
      simp [hclosed.sockfd]
    . rw [hframe.conn c' heq]
      simp [heq]
  . intro s
    rw [hserver]
    by_cases heq : s = (r.conn c).server
    . subst heq
      rw [erased_self]
      exact (h.keys _).sublist (List.filter_sublist.map _)
    . rw [erased_of_ne heq]
      exact h.keys s

section NewConnection

theorem entered_of_fresh (h : Registry r) (hlt : r.created + 1 < 2 ^ 31)
    : ∃ id : Nat, 1 ≤ id ∧ (id : Int) = (r.server s).nextConnId_ ∧ id ≤ r.created + 1 ∧
        TcpServer.connName (r.server s).name_ (r.server s).nextConnId_
          = TcpServer.connName s.name id := by
  obtain ⟨hone, hle⟩ := h.nextId hlt s
  refine ⟨(r.server s).nextConnId_.toNat, ?_, ?_, ?_, ?_⟩
  . omega
  . omega
  . omega
  . rw [h.serverName s, Int.toNat_of_nonneg (by omega)]

theorem Registry.fresh (h : Registry r) (hlt : r.created + 1 < 2 ^ 31) (hc : c < r.created)
    (howner : (r.conn c).server = s)
    : (r.conn c).name_ ≠ TcpServer.connName (r.server s).name_ (r.server s).nextConnId_ := by
  subst howner
  obtain ⟨id, _, hid, hbound, hname⟩ := entered_of_fresh (s := (r.conn c).server) h hlt
  obtain ⟨id', _, hid', hname'⟩ := h.named hlt c hc
  rw [hname, hname']
  intro heq
  have hsame := TcpServer.connName_injective _ (by omega) (by omega) heq
  omega

theorem Registry.entered (h : Registry r) (hlt : r.created + 1 < 2 ^ 31)
    : (entered r s).connections_
        =
      (r.server s).connections_ ++
        [(TcpServer.connName (r.server s).name_ (r.server s).nextConnId_, r.created)] := by
  unfold Reactor.entered
  dsimp only
  congr 1
  rw [List.filter_eq_self]
  intro entry hentry
  obtain ⟨name, c⟩ := entry
  obtain ⟨hc, howner, hname, _⟩ := (h.mem _ _ _).mp hentry
  rw [decide_eq_true_eq, ← hname]
  exact h.fresh hlt hc howner

theorem Registry.keys_entered (h : Registry r) (hlt : r.created + 1 < 2 ^ 31)
    : ((Reactor.entered r s).connections_.map Prod.fst).Nodup := by
  rw [h.entered hlt, List.map_append, List.map_singleton]
  rw [List.nodup_append]
  refine ⟨h.keys s, List.nodup_singleton _, ?_⟩
  intro a ha b hb hab
  rw [List.mem_singleton] at hb
  rw [List.mem_map] at ha
  obtain ⟨⟨name, c⟩, hentry, hfst⟩ := ha
  obtain ⟨hc, howner, hnamed, _⟩ := (h.mem _ _ _).mp hentry
  apply h.fresh hlt hc howner
  rw [hnamed]
  exact hfst.trans (hab.trans hb)

structure Enters (s : ServerId) (fd : Int) (r r' : Reactor) : Prop where
  created : r'.created = r.created + 1
  conn : ∀ c, c ≠ r.created → r'.conn c = r.conn c
  owner : (r'.conn r.created).server = s
  name : (r'.conn r.created).name_ = TcpServer.connName (r.server s).name_ (r.server s).nextConnId_
  sockfd : (r'.conn r.created).sockfd_ = fd
  server : r'.server = Function.update r.server s (Reactor.entered r s)

theorem newConnection_enters (r : Reactor) (s : ServerId) (fd : Int)
    : Enters s fd r (TcpServer.newConnection r s fd) where
  created := newConnection_created
  conn := fun _ hne => (newConnection_same hne).conn
  owner := by
    rw [newConnection_eq]
    simp
  name := by
    rw [newConnection_eq]
    simp
  sockfd := by
    rw [newConnection_eq]
    simp
  server := by rw [newConnection_eq]

theorem Enters.forall_server (henters : Enters s fd r r') {p : ServerId → TcpServer → Prop}
    (hself : p s (Reactor.entered r s)) (hother : ∀ s', p s' (r.server s'))
    : ∀ s', p s' (r'.server s') := by
  rw [henters.server]
  exact (Function.forall_update_iff _ p).mpr ⟨hself, fun s' _ => hother s'⟩

theorem entered_nextConnId (h : Registry r) (hlt : r.created + 2 < 2 ^ 31)
    : (Reactor.entered r s).nextConnId_ = (r.server s).nextConnId_ + 1 := by
  obtain ⟨_, hle⟩ := h.nextId (by omega) s
  unfold Reactor.entered
  apply TcpServer.incrInt_of_lt
  omega

theorem Enters.nextId (henters : Enters s fd r r') (h : Registry r) (hlt : r.created + 2 < 2 ^ 31)
    : ∀ s', 1 ≤ (r'.server s').nextConnId_ ∧ (r'.server s').nextConnId_ ≤ r.created + 2 := by
  rw [henters.server]
  intro s'
  obtain ⟨hone, hle⟩ := h.nextId (by omega) s'
  by_cases heq : s' = s
  . subst heq
    rw [Function.update_self, entered_nextConnId h hlt]
    omega
  . rw [Function.update_of_ne heq]
    omega

theorem Enters.named (henters : Enters s fd r r') (h : Registry r) (hlt : r.created + 2 < 2 ^ 31)
    : ∀ c < r.created + 1, Named r' c := by
  intro c hc
  unfold Named
  rw [henters.server]
  by_cases heq : c = r.created
  . subst heq
    obtain ⟨id, hid, hnextId, _, hgiven⟩ := entered_of_fresh (s := s) h (by omega)
    rw [henters.owner, henters.name, Function.update_self, entered_nextConnId h hlt]
    refine ⟨id, hid, ?_, hgiven⟩
    omega
  . rw [henters.conn c heq]
    obtain ⟨id, hid, hbefore, hgiven⟩ := h.named (by omega) c (by omega)
    refine ⟨id, hid, ?_, hgiven⟩
    by_cases hs : (r.conn c).server = s
    . subst hs
      rw [Function.update_self, entered_nextConnId h hlt]
      omega
    . rw [Function.update_of_ne hs]
      exact hbefore

theorem Enters.distinct (henters : Enters s fd r r') (h : Registry r) (hlt : r.created + 1 < 2 ^ 31)
    : ∀ c < r.created + 1, ∀ c' < r.created + 1, (r'.conn c).server = (r'.conn c').server →
        (r'.conn c).name_ = (r'.conn c').name_ → c = c' := by
  have hnew : ∀ c < r.created + 1, c ≠ r.created → (r'.conn c).server = s →
      (r'.conn c).name_ ≠ (r'.conn r.created).name_ := by
    intro c hc hne howner
    rw [henters.conn c hne] at howner ⊢
    rw [henters.name]
    exact h.fresh hlt (by omega) howner
  intro c hc c' hc' howner hname
  by_cases heq : c = r.created
  . by_cases heq' : c' = r.created
    . rw [heq, heq']
    . rw [heq] at howner hname
      rw [henters.owner] at howner
      exact absurd hname.symm (hnew c' hc' heq' howner.symm)
  . by_cases heq' : c' = r.created
    . rw [heq'] at howner hname
      rw [henters.owner] at howner
      exact absurd hname (hnew c hc heq howner)
    . rw [henters.conn c heq, henters.conn c' heq'] at howner hname
      exact h.distinct c (by omega) c' (by omega) howner hname

theorem Enters.mem (henters : Enters s fd r r') (h : Registry r) (hlt : r.created + 1 < 2 ^ 31)
    (hfd : 0 ≤ fd) : ∀ s' name c, (name, c) ∈ (r'.server s').connections_ ↔
      c < r.created + 1 ∧ (r'.conn c).server = s' ∧ (r'.conn c).name_ = name ∧
        0 ≤ (r'.conn c).sockfd_ := by
  intro s' name c
  rw [henters.server]
  by_cases heq : c = r.created
  . subst heq
    rw [henters.owner, henters.name, henters.sockfd]
    have hnot : ∀ s', (name, r.created) ∉ (r.server s').connections_ := by
      intro s' hmem
      exact absurd ((h.mem _ _ _).mp hmem).1 (Nat.lt_irrefl _)
    by_cases hs : s' = s
    . subst hs
      rw [Function.update_self, h.entered hlt, List.mem_append]
      simp [hnot, hfd, eq_comm]
    . rw [Function.update_of_ne hs]
      simp [hnot, Ne.symm hs]
  . have hlt' : c < r.created + 1 ↔ c < r.created := by omega
    rw [henters.conn c heq, hlt', ← h.mem s' name c]
    by_cases hs : s' = s
    . subst hs
      rw [Function.update_self, h.entered hlt, List.mem_append]
      simp [heq]
    . rw [Function.update_of_ne hs]

theorem Registry.newConnection (h : Registry r) (hlt : r.created + 1 < 2 ^ 31) (hfd : 0 ≤ fd)
    : Registry (TcpServer.newConnection r s fd) := by
  have henters := newConnection_enters r s fd
  constructor
  . exact henters.forall_server (p := fun s server => server.name_ = s.name) (h.serverName s) h.serverName
  . rw [henters.created]
    exact henters.nextId h
  . rw [henters.created]
    exact henters.named h
  . rw [henters.created]
    exact henters.distinct h hlt
  . rw [henters.created]
    exact henters.mem h hlt hfd
  . exact henters.forall_server (p := fun _ server => (server.connections_.map Prod.fst).Nodup)
      (h.keys_entered hlt) h.keys

end NewConnection

theorem registry_init : Registry init := by
  constructor
  . intro s
    rfl
  . intro _ s
    constructor <;> simp [init]
  . intro _ c hc
    exact absurd hc (Nat.not_lt_zero c)
  . intro c hc
    exact absurd hc (Nat.not_lt_zero c)
  . intro s name c
    simp [init]
  . intro s
    exact List.nodup_nil

theorem Registry.step (h : Registry r) (hinv : Inv r) {l : Label} (hl : step r l = some r')
    (hcount : r'.created < 2 ^ 31) : Registry r' := by
  cases hinv.outcome hl with
  | callback c fd hc hopen heffect =>
    cases heffect.outcome with
    | inl hstays => exact h.stays hopen heffect.frame hstays.1 hstays.2.1
    | inr hcloses => exact h.closes hc heffect.frame hcloses.1 hcloses.2
  | late c hc hclosed hlate => exact h.late hlate
  | accepted s fd hfd hunused heq =>
    subst heq
    rw [newConnection_created] at hcount
    exact h.newConnection hcount hfd
  | refused heq =>
    rw [heq]
    exact h

theorem created_step (hinv : Inv r) {l : Label} (hl : step r l = some r')
    : r.created ≤ r'.created := by
  cases hinv.outcome hl with
  | callback c fd hc hopen heffect => exact heffect.frame.created.ge
  | late c hc hclosed hlate => exact hlate.created.ge
  | accepted s fd hfd hunused heq =>
    rw [heq, newConnection_created]
    exact Nat.le_succ _
  | refused heq => rw [heq]

theorem registry_exec {ls : List Label} (h : exec step init ls = some r)
    (hcount : r.created < 2 ^ 31) : Registry r := by
  have hinv : Inv r ∧ (r.created < 2 ^ 31 → Registry r) := by
    apply exec_invariant step (P := fun r => Inv r ∧ (r.created < 2 ^ 31 → Registry r)) _ _ h
    . intro r l r' hr hl
      refine ⟨hr.1.step hl, ?_⟩
      intro hlt
      exact (hr.2 (lt_of_le_of_lt (created_step hr.1 hl) hlt)).step hr.1 hl hlt
    . exact ⟨inv_init, fun _ => registry_init⟩
  exact hinv.2 hcount

def Call.isClose : Call → Bool
  | .close _ => true
  | _ => false

theorem Closed.count (h : Closed c r)
    : (r.calls c).countP Call.isClose = 1 ∧ (r.calls c).count .removeConnection = 1 := by
  obtain ⟨earlier, fd, hcalls, hearlier⟩ := h.calls
  have hclose : earlier.countP Call.isClose = 0 := by
    rw [List.countP_eq_zero]
    intro x hx
    cases x with
    | close fd => exact absurd rfl ((hearlier _ hx).2 fd)
    | epollCtl | read | write | removeConnection => simp [Call.isClose]
  have hremove : earlier.count .removeConnection = 0 := by
    rw [List.count_eq_zero]
    intro hmem
    exact (hearlier _ hmem).1 rfl
  rw [hcalls]
  simp [hclose, hremove, Call.isClose]

theorem Open.count (h : Open c fd r)
    : (r.calls c).countP Call.isClose = 0 ∧ (r.calls c).count .removeConnection = 0 := by
  rw [List.countP_eq_zero, List.count_eq_zero]
  constructor
  . intro x hx
    cases x with
    | close fd => exact absurd rfl ((h.calls _ hx).2 fd)
    | epollCtl | read | write | removeConnection => simp [Call.isClose]
  . intro hmem
    exact (h.calls _ hmem).1 rfl

theorem Closed.close_last (h : Closed c r) {earlier later : List Call}
    (hcalls : r.calls c = earlier ++ .close fd :: later) : later = [] := by
  obtain ⟨before, fd', hbefore, hkeeps⟩ := h.calls
  rw [hcalls, List.append_eq_append_iff] at hbefore
  rcases hbefore with ⟨rest, hrest, hsplit⟩ | ⟨rest, hrest, hsplit⟩
  . -- the close would lie before `removeConnection`
    cases rest with
    | nil => simp at hsplit
    | cons x rest =>
      rw [List.cons_append, List.cons.injEq] at hsplit
      apply absurd rfl ((hkeeps (.close fd) _).2 fd)
      rw [hrest, ← hsplit.1]
      simp
  . cases rest with
    | nil => simp at hsplit
    | cons x rest =>
      cases rest with
      | nil =>
        simp only [List.cons_append, List.nil_append, List.cons.injEq] at hsplit
        exact hsplit.2.2.symm
      | cons y rest => simp at hsplit

/--
A connection closes at most once, nothing is called through it afterwards, and between callbacks the
map of each server holds its connections that are not closed.
-/
theorem closes_once_and_registered {ls : List Label} {r : Reactor}
    (h : exec step init ls = some r) (hcount : r.created < 2 ^ 31)
    : (∀ c,
        (r.calls c).countP Call.isClose ≤ 1 ∧
        (r.calls c).count .removeConnection ≤ 1 ∧
        (∀ earlier fd later, r.calls c = earlier ++ .close fd :: later →
          later = [] ∧ .removeConnection ∈ earlier)) ∧
      (∀ s,
        ((r.server s).connections_.map Prod.fst).Nodup ∧
        ∀ name c, (name, c) ∈ (r.server s).connections_ ↔
          c < r.created ∧ (r.conn c).server = s ∧ (r.conn c).name_ = name ∧
            0 ≤ (r.conn c).sockfd_) := by
  have hinv := inv_exec h
  have hregistry := registry_exec h hcount
  refine ⟨?_, fun s => ⟨hregistry.keys s, hregistry.mem s⟩⟩
  intro c
  by_cases hc : c < r.created
  . cases hinv.conns c hc with
    | inl hopen =>
      obtain ⟨fd, hopen⟩ := hopen
      refine ⟨hopen.count.1.le.trans (by decide), hopen.count.2.le.trans (by decide), ?_⟩
      intro earlier fd' later hcalls
      have hmem : Call.close fd' ∈ r.calls c := by simp [hcalls]
      exact absurd rfl ((hopen.calls _ hmem).2 fd')
    | inr hclosed =>
      refine ⟨hclosed.count.1.le, hclosed.count.2.le, ?_⟩
      intro earlier fd later hcalls
      have hlast := hclosed.close_last hcalls
      refine ⟨hlast, ?_⟩
      have hone := hclosed.count.2
      rw [hcalls, hlast, List.count_append, List.count_cons_of_ne (by simp), List.count_nil] at hone
      exact List.count_pos_iff.mp (by omega)
  . have hcalls := (hinv.unborn c (not_lt.mp hc)).calls
    rw [hcalls]
    simp

/--
Connection 0 closes at end of file, its descriptor goes to connection 1, and an event of the same
batch still points at connection 0.
-/
def staleEvent : List Label := [
  .accept .api 5,
  .event 0 EPOLLIN (.data []) .again [],
  .accept .mgmt 5,
  .event 0 (EPOLLIN ||| EPOLLOUT) (.data [71]) (.accepted 1) []
]

theorem closes_once_and_registered_staleEvent
    : ∃ r, exec step init staleEvent = some r ∧
        (r.conn 1).sockfd_ = 5 ∧
        (r.calls 0).countP Call.isClose ≤ 1 ∧
        ((r.server .mgmt).connections_.map Prod.fst).Nodup := by
  have hend := Option.eq_some_of_isSome (o := exec step init staleEvent) (by decide)
  obtain ⟨hclose, hregistry⟩ := closes_once_and_registered hend (by decide)
  exact ⟨_, hend, by decide, (hclose 0).1, (hregistry .mgmt).1⟩

end Reactor
end LFGateway
