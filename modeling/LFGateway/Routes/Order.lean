import Mathlib.Data.List.Nodup
import LFGateway.Gateway.Impl.Requests
import LFGateway.Routes.Coherence

/-!
This module contains when the rule of a path depends on the order in which MySQL returns the rows. The
query asks for no order, and `Router::match` takes the first rule whose pattern the path begins with.
-/

namespace LFGateway
namespace Routing

open Foundation

section Find

variable {α : Type} {p : α → Bool} {l l' : List α}

theorem find?_eq_of_perm (h : l.Perm l') (hunique : ∀ a ∈ l, ∀ b ∈ l, p a → p b → a = b)
    : l.find? p = l'.find? p := by
  cases hfind : l.find? p with
  | none =>
    rw [eq_comm, List.find?_eq_none]
    intro a ha
    exact List.find?_eq_none.mp hfind a (h.mem_iff.mpr ha)
  | some a =>
    have ha : a ∈ l := List.mem_of_find?_eq_some hfind
    have hpa : p a := List.find?_some hfind
    cases hfind' : l'.find? p with
    | none => exact absurd hpa (List.find?_eq_none.mp hfind' a (h.mem_iff.mp ha))
    | some b =>
      have hb : b ∈ l := h.mem_iff.mpr (List.mem_of_find?_eq_some hfind')
      rw [hunique a ha b hb hpa (List.find?_some hfind')]

end Find

def chosen (rules_ : List LoadedRule) (path : Bytes) : Option LoadedRule :=
  (Router.match 0 (rules_.map LoadedRule.toRouteRule) path).bind fun handle => rules_[handle.index]?

/--
What of a rule decides about a request, and its id.
-/
def verdict (rule : LoadedRule) : Int × Bool × Int := (rule.id, rule.needAuth, rule.rateLimit)

/--
However the table is loaded twice, every path gets the same rule.
-/
def OrderFree (routes : List ApiRoute) : Prop :=
  ∀ s s₁ s₂ outcomes₁ outcomes₂, s.api_routes = routes →
    Router.loadFromMySQL.run answer s outcomes₁ = some (some true, s₁) →
    Router.loadFromMySQL.run answer s outcomes₂ = some (some true, s₂) →
    ∀ path, (chosen s₁.rules_ path).map verdict = (chosen s₂.rules_ path).map verdict

/--
No pattern is the beginning of another one.
-/
def PatternsApart (routes : List ApiRoute) : Prop :=
  routes.Pairwise fun route route' =>
    ¬route.rule.pathPattern <+: route'.rule.pathPattern ∧
      ¬route'.rule.pathPattern <+: route.rule.pathPattern

instance (routes : List ApiRoute) : Decidable (PatternsApart routes) :=
  inferInstanceAs (Decidable (routes.Pairwise _))

variable {s : Routing} {routes order : List ApiRoute}

theorem chosen_eq_find? (rules_ : List LoadedRule) (path : Bytes)
    : chosen rules_ path = rules_.find? fun rule => rule.matches path := by
  rw [List.find?_eq_bind_findIdx?_getElem?]
  unfold chosen Router.match
  rw [List.findIdx?_map]
  rw [Option.bind_map]
  rfl

theorem chosen_map_rule (order : List ApiRoute) (path : Bytes)
    : chosen (order.map ApiRoute.rule) path
        = (order.find? fun route => route.rule.matches path).map ApiRoute.rule := by
  rw [chosen_eq_find?, List.find?_map]
  rfl

theorem run_load (h : order.Perm s.api_routes)
    : Router.loadFromMySQL.run answer s [.acquired 0, .executed, .rows order, .done, .done]
        =
      some (some true, { s with rules_ := order.map ApiRoute.rule }) := by
  unfold Router.loadFromMySQL
  rw [Prog.run_perform_bind]
  refine ⟨_, _, some 0, s, rfl, rfl, ?_⟩
  rw [Prog.run_perform_bind]
  refine ⟨_, _, true, s, rfl, rfl, ?_⟩
  rw [Bool.not_true, if_neg Bool.false_ne_true, Prog.run_perform_bind]
  refine ⟨_, _, some (order.map ApiRoute.row), s, rfl, ?_, ?_⟩
  . simp only [answer, h, ↓reduceIte]
  . simp only [rulesOfRows_map]
    rw [Prog.run_perform_bind]
    refine ⟨_, _, (), s, rfl, rfl, ?_⟩
    rw [Prog.run_perform_bind]
    exact ⟨_, _, (), _, rfl, rfl, Prog.run_pure.mpr ⟨rfl, rfl, rfl⟩⟩

theorem exists_order_of_run {outcomes : List Outcome} {s' : Routing}
    (h : Router.loadFromMySQL.run answer s outcomes = some (some true, s'))
    : ∃ order : List ApiRoute, order.Perm s.api_routes ∧ s'.rules_ = order.map ApiRoute.rule := by
  generalize hr : some true = r at h
  cases loadEnd_of_run h with
  | threw => contradiction
  | failed => simp at hr
  | loaded order hperm => exact ⟨order, hperm, rfl⟩

theorem orderFree_of_patternsApart (h : PatternsApart routes) : OrderFree routes := by
  intro s s₁ s₂ outcomes₁ outcomes₂ hroutes h₁ h₂ path
  obtain ⟨order₁, hperm₁, hrules₁⟩ := exists_order_of_run h₁
  obtain ⟨order₂, hperm₂, hrules₂⟩ := exists_order_of_run h₂
  rw [hroutes] at hperm₁ hperm₂
  rw [hrules₁, hrules₂, chosen_map_rule, chosen_map_rule,
    find?_eq_of_perm (hperm₁.trans hperm₂.symm)]
  intro a ha b hb hpa hpb
  -- both patterns begin the path, so one of them begins the other
  by_contra hne
  have : Std.Symm fun route route' : ApiRoute =>
      ¬route.rule.pathPattern <+: route'.rule.pathPattern ∧
        ¬route'.rule.pathPattern <+: route.rule.pathPattern := ⟨fun _ _ => And.symm⟩
  have hapart := List.Pairwise.forall h (hperm₁.mem_iff.mp ha) (hperm₁.mem_iff.mp hb) hne
  have hbegin : a.rule.pathPattern <+: path := List.isPrefixOf_iff_prefix.mp hpa
  have hbegin' : b.rule.pathPattern <+: path := List.isPrefixOf_iff_prefix.mp hpb
  exact (List.prefix_or_prefix_of_prefix hbegin hbegin').elim hapart.1 hapart.2

theorem chosen_first {route : ApiRoute} {path : Bytes} (rest : List ApiRoute)
    (h : route.rule.pathPattern <+: path)
    : chosen ((route :: rest).map ApiRoute.rule) path = some route.rule := by
  have hmatches : route.rule.matches path = true := List.isPrefixOf_iff_prefix.mpr h
  rw [chosen_map_rule]
  simp only [List.find?_cons, hmatches, Option.map_some]

theorem id_eq_of_orderFree {route route' : ApiRoute} (h : OrderFree routes) (hroute : route ∈ routes)
    (hroute' : route' ∈ routes) (hbegin : route.rule.pathPattern <+: route'.rule.pathPattern)
    : route.id = route'.id := by
  have hsame := h ⟨routes, [], []⟩ _ _ _ _ rfl
    (run_load (List.perm_cons_erase hroute).symm) (run_load (List.perm_cons_erase hroute').symm)
    route'.rule.pathPattern
  rw [chosen_first _ hbegin, chosen_first _ (List.prefix_refl _)] at hsame
  simp only [Option.map_some, verdict, Option.some.injEq, Prod.mk.injEq] at hsame
  exact Int32.toInt_inj.mp hsame.1

/--
Where no two rows have the same id, the order of the rows is of no account for any path exactly if no
pattern is the beginning of another one.
-/
theorem orderFree_iff (routes : List ApiRoute) (hids : (routes.map ApiRoute.id).Nodup)
    : OrderFree routes ↔ PatternsApart routes := by
  constructor
  . intro h
    apply (List.Nodup.of_map ApiRoute.id hids).pairwise_of_forall_ne
    intro route hroute route' hroute' hne
    constructor
    . intro hbegin
      exact hne (List.inj_on_of_nodup_map hids hroute hroute' (id_eq_of_orderFree h hroute hroute' hbegin))
    . intro hbegin
      exact hne (List.inj_on_of_nodup_map hids hroute hroute'
        (id_eq_of_orderFree h hroute' hroute hbegin).symm)
  . exact orderFree_of_patternsApart

def otherRoute : ApiRoute :=
  ⟨2, Bytes.ofAscii "/static", Bytes.ofAscii "localhost", 8083, some 0, none⟩

theorem orderFree_iff_apart : OrderFree [testRoute, otherRoute] :=
  (orderFree_iff [testRoute, otherRoute] (by decide)).mpr (by decide)

def openRoute : ApiRoute :=
  ⟨2, Bytes.ofAscii "/api/test/open", Bytes.ofAscii "localhost", 8082, some 0, none⟩

theorem not_orderFree_nested
    : ([testRoute, openRoute].map ApiRoute.path_pattern).Nodup ∧
        ([testRoute, openRoute].map ApiRoute.id).Nodup ∧ ¬OrderFree [testRoute, openRoute] := by
  refine ⟨by decide, by decide, fun h => ?_⟩
  have hid : testRoute.id = openRoute.id := id_eq_of_orderFree h (by simp) (by simp) (by decide)
  exact absurd hid (by decide)

end Routing
end LFGateway
