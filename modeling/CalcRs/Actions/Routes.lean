import CalcRs.Actions.Quotes

/-! What an execution does to the routes of a swap, and what is left of them after any number of executions. -/
namespace CalcRs
open Fault (Alike)

/-! ### Quotes do not read the cache -/

section

variable [Crates] {deps : Deps} {env : Env}

/-- The request leaves the cached swap out. -/
theorem getThorchainSwapQuote_identity {S : Type} (quote : SwapQuote S) :
    Alike (getThorchainSwapQuote deps { quote with route := quote.route.identity })
      (getThorchainSwapQuote deps quote) := by
  refine getThorchainSwapQuote_alike ?_
  obtain ⟨_,_,_,_,route,_,_⟩ := quote
  cases route <;> rfl

theorem SwapQuote.adjust_identity (quote : SwapQuote New) :
    Alike (({ quote with route := quote.route.identity } : SwapQuote New).adjust deps env)
      ((fun adjusted : SwapQuote Adjusted => { adjusted with route := adjusted.route.identity }) <$>
        quote.adjust deps env) := by
  have hout : Alike (quote.route.identity.getExpectedAmountOut deps { quote with route := quote.route.identity })
      (quote.route.getExpectedAmountOut deps quote) := by
    have hsame := @getThorchainSwapQuote_identity _ deps _ quote
    cases hr : quote.route with
    | fin r => exact .of_eq (by rw [SwapRoute.identity,← hr])
    | thorchain r =>
      rw [hr] at hsame
      exact Alike.bind hsame fun _ _ => .refl _
  obtain ⟨_,_,_,adjustment,_,_,_⟩ := quote
  rw [adjust,adjust]
  simp only [Except.map_bind,Except.map_ite]
  refine (Alike.refl _).bind fun balance _ => ?_
  split_ifs
  · exact .refl _
  cases adjustment with
  | fixed =>
    simp only [Except.map_bind]
    exact .refl _
  | linearScalar base least scalar =>
    simp only [Except.map_bind,Except.map_ite]
    exact hout.bind fun expected _ => .refl _

theorem SwapRoute.validateAdjusted_identity (quote : SwapQuote Adjusted) :
    Alike (quote.route.identity.validateAdjusted deps env { quote with route := quote.route.identity })
      (quote.route.validateAdjusted deps env quote) := by
  have hsame := @getThorchainSwapQuote_identity _ deps _ quote
  cases hr : quote.route with
  | fin r => exact .of_eq (by rw [identity,← hr])
  | thorchain r =>
    rw [hr] at hsame
    simp only [SwapRoute.validateAdjusted,identity,ThorchainRoute.validateAdjusted]
    split_ifs
    · exact .refl _
    · exact Alike.bind hsame fun _ _ => .refl _

/-- A route offers what it offers without the swap it has cached. -/
theorem Swap.offer_identity (s : Swap) (route : SwapRoute) : s.offer deps env route.identity=s.offer deps env route := by
  have hadjust := @SwapQuote.adjust_identity _ deps env (s.quoteFor env route)
  refine ((hadjust.bind fun _ _ => .refl _).trans ?_).toOption_eq
  rw [bind_map_left]
  exact (Alike.refl _).bind fun adjusted _ => SwapRoute.validateAdjusted_identity adjusted

end

/-! ### One execution -/

namespace SwapRoute

theorem sameKind_identity (r route : SwapRoute) : r.sameKind route.identity=r.sameKind route := by
  cases r <;> cases route <;> rfl

theorem sameKind_congr {r r' : SwapRoute} (h : r.sameKind r') (route : SwapRoute) :
    route.sameKind r'=route.sameKind r ∧ r'.sameKind route=r.sameKind route := by
  cases r <;> cases r' <;> cases route <;> simp_all [sameKind]

end SwapRoute

namespace Swap

/-- The same swap, up to the swaps that its routes have cached. -/
structure SameRoutes (s s' : Swap) : Prop where
  swapAmount : s'.swapAmount=s.swapAmount
  minimumReceiveAmount : s'.minimumReceiveAmount=s.minimumReceiveAmount
  maximumSlippageBps : s'.maximumSlippageBps=s.maximumSlippageBps
  adjustment : s'.adjustment=s.adjustment
  routes : s'.routes.map SwapRoute.identity=s.routes.map SwapRoute.identity

theorem SameRoutes.trans {s s' s'' : Swap} (h : s.SameRoutes s') (h' : s'.SameRoutes s'') : s.SameRoutes s'' :=
  ⟨h'.swapAmount.trans h.swapAmount,h'.minimumReceiveAmount.trans h.minimumReceiveAmount,
    h'.maximumSlippageBps.trans h.maximumSlippageBps,h'.adjustment.trans h.adjustment,h'.routes.trans h.routes⟩

section

variable [Crates]

/-- The same routes are quoted, and make the same offers. -/
theorem SameRoutes.offers {s s' : Swap} (h : s.SameRoutes s') (deps : Deps) (env : Env) :
    s'.routes.map (s'.offer deps env)=s.routes.map (s.offer deps env) := by
  have hoffer : ∀ route, s'.offer deps env route=s.offer deps env route := fun route => by
    have hquote : s'.quoteFor env route=s.quoteFor env route := by
      simp only [quoteFor,h.swapAmount,h.minimumReceiveAmount,h.maximumSlippageBps,h.adjustment]
    rw [offer,routeQuote,hquote]
    rfl
  have hmap : ∀ routes : List SwapRoute, routes.map (s.offer deps env)=
      (routes.map SwapRoute.identity).map (s.offer deps env) := fun routes => by
    rw [List.map_map]
    exact List.map_congr_left fun route _ => (offer_identity s route).symm
  calc s'.routes.map (s'.offer deps env)=s'.routes.map (s.offer deps env) := List.map_congr_left fun r _ => hoffer r
    _=(s'.routes.map SwapRoute.identity).map (s.offer deps env) := hmap _
    _=(s.routes.map SwapRoute.identity).map (s.offer deps env) := by rw [h.routes]
    _=s.routes.map (s.offer deps env) := (hmap _).symm

/-- There is at most one route of each variant. -/
def Single (s : Swap) : Prop := ∀ (i j : ℕ) r r', i≠j → s.routes[i]?=some r → s.routes[j]?=some r' → ¬r.sameKind r'

/-- An execution that returned. -/
structure Execution where
  before : Swap
  deps : Deps
  env : Env
  messages : List CosmosMsg
  after : Swap
  executes : before.executeUnsafe deps env=.ok (messages,after)

namespace Execution

variable {e : Execution} {j : ℕ} {quote : SwapQuote Executable}

/-- The best offer was made by the route at this position. -/
def Bought (e : Execution) (j : ℕ) (quote : SwapQuote Executable) : Prop :=
  Best.Wins (e.before.offer e.deps e.env) output 0 e.before.routes j quote

/-- Only what the executed route has cached changed. -/
def Keeps (e : Execution) : Prop := e.before.SameRoutes e.after ∧
  ∃ j quote, e.Bought j quote ∧ ∀ i, i≠j → e.after.routes[i]?=e.before.routes[i]?

/-- Any other route of the variant that was bought from is the route of the quote already. -/
def Lone (e : Execution) : Prop := ∀ j quote, e.Bought j quote →
  ∀ i route, i≠j → e.before.routes[i]?=some route → route.sameKind quote.route → route=quote.route

/-- The executed route takes the place of every route of its variant. -/
theorem after_eq (e : Execution) : ∃ j quote, e.Bought j quote ∧ e.after=
    { e.before with routes := e.before.routes.map fun r => if r.sameKind quote.route then quote.route else r } := by
  obtain ⟨j,quote,_,hw,_,_,hafter⟩ := executeUnsafe_eq_ok e.executes
  exact ⟨j,quote,hw,hafter⟩

/-- The executed route is one of the routes, with a swap it has cached now. -/
theorem Bought.identity (h : e.Bought j quote) :
    ∃ route, e.before.routes[j]?=some route ∧ quote.route.identity=route.identity := by
  obtain ⟨route,hroute,hoffer⟩ := h.made
  have hquote := Except.toOption_eq_some.mp hoffer
  obtain ⟨adjusted,hadjusted,_⟩ := Except.bind_eq_ok.mp hquote
  obtain ⟨coin,hb,_⟩ := Except.bind_eq_ok.mp hadjusted
  exact ⟨route,hroute,(routeQuote_accepts (query_eq_ok.mp hb) hquote).identity⟩

theorem lone_of_single (h : e.before.Single) : e.Lone := by
  intro j quote hw i route hne hroute hkind
  obtain ⟨winner,hwinner,hidentity⟩ := hw.identity
  refine (h i j route winner hne hroute hwinner ?_).elim
  rwa [← SwapRoute.sameKind_identity,hidentity,SwapRoute.sameKind_identity] at hkind

theorem single_after (e : Execution) (h : e.before.Single) : e.after.Single := by
  obtain ⟨_,quote,_,hafter⟩ := e.after_eq
  have hkind : ∀ (i : ℕ) route, e.after.routes[i]?=some route →
      ∃ route', e.before.routes[i]?=some route' ∧ ∀ r : SwapRoute, r.sameKind route=r.sameKind route' ∧
        route.sameKind r=route'.sameKind r := by
    intro i route hi
    rw [hafter,List.getElem?_map] at hi
    obtain ⟨route',hi',rfl⟩ := Option.map_eq_some_iff.mp hi
    refine ⟨route',hi',fun r => ?_⟩
    split_ifs with hsame
    · exact SwapRoute.sameKind_congr hsame r
    · exact ⟨rfl,rfl⟩
  intro i j r r' hne hi hj hsame
  obtain ⟨q,hq,hrq⟩ := hkind i r hi
  obtain ⟨q',hq',hrq'⟩ := hkind j r' hj
  exact h i j q q' hne hq hq' (by rwa [(hrq _).2,(hrq' _).1] at hsame)

theorem keeps_iff (e : Execution) : e.Keeps ↔ e.Lone := by
  obtain ⟨j,quote,hw,hafter⟩ := e.after_eq
  constructor
  · rintro ⟨_,j',quote',hw',hkeep⟩ i quote'' hw'' k route hk hroute hkind
    obtain ⟨rfl,rfl⟩ := hw.unique hw'
    obtain ⟨rfl,rfl⟩ := hw.unique hw''
    have hk := hkeep k hk
    rw [hafter,List.getElem?_map,hroute,Option.map_some,if_pos hkind] at hk
    exact (Option.some.inj hk).symm
  · intro hlone
    obtain ⟨winner,hwinner,hidentity⟩ := hw.identity
    have hroute : ∀ i route, e.before.routes[i]?=some route → i≠j →
        (if route.sameKind quote.route then quote.route else route)=route := by
      intro i route hi hne
      split_ifs with hkind
      · exact (hlone j quote hw i route hne hi hkind).symm
      · rfl
    have hsame : ∀ i, i≠j → e.after.routes[i]?=e.before.routes[i]? := by
      intro i hne
      rw [hafter,List.getElem?_map]
      cases hi : e.before.routes[i]? with
      | none => rfl
      | some route => exact congrArg some (hroute i route hi hne)
    refine ⟨?_,j,quote,hw,hsame⟩
    rw [hafter]
    refine ⟨rfl,rfl,rfl,rfl,?_⟩
    apply List.ext_getElem?
    intro i
    rw [List.map_map,List.getElem?_map,List.getElem?_map]
    cases hi : e.before.routes[i]? with
    | none => rfl
    | some route =>
      apply congrArg some
      change (if route.sameKind quote.route then quote.route else route).identity=route.identity
      by_cases hij : i=j
      · obtain rfl : route=winner := Option.some.inj (hi.symm.trans (hij ▸ hwinner))
        split_ifs with hkind
        · exact hidentity
        · rfl
      · rw [hroute i route hi hij]

end Execution

/-! ### A run -/

/-- Executions in a row: each one starts from what the one before it has stored. -/
def Run : Swap → List Execution → Prop
  | _,[] => True
  | s,e :: rest => e.before=s ∧ Run e.after rest

/-- The routes of a swap stay what they are in every execution of a run, and are all quoted in the next one. -/
def KeepsRoutes (s : Swap) (run : List Execution) : Prop := ∀ e ∈ run, e.Keeps ∧ s.SameRoutes e.after ∧
  ∀ deps env, e.after.routes.map (e.after.offer deps env)=s.routes.map (s.offer deps env)

theorem Run.same {s : Swap} {run : List Execution} (h : Run s run) (hk : ∀ e ∈ run, e.Keeps) :
    ∀ e ∈ run, s.SameRoutes e.after := by
  induction run generalizing s with
  | nil => simp
  | cons e rest ih =>
    obtain ⟨rfl,hrest⟩ := h
    have hfirst := (hk e (by simp)).1
    intro e' he'
    rcases List.mem_cons.mp he' with rfl | he'
    · exact hfirst
    · exact hfirst.trans (ih hrest (fun e he => hk e (by simp [he])) e' he')

theorem Run.keepsRoutes {s : Swap} {run : List Execution} (h : Run s run) (hlone : ∀ e ∈ run, e.Lone) :
    s.KeepsRoutes run := by
  intro e he
  have hk : ∀ e ∈ run, e.Keeps := fun e he => e.keeps_iff.mpr (hlone e he)
  have hsame := h.same hk e he
  exact ⟨hk e he,hsame,hsame.offers⟩

/-- A run keeps the routes exactly when every other route of a variant that is bought from is the bought one. -/
theorem run_keeps_routes_iff {s : Swap} {run : List Execution} (h : Run s run) :
    s.KeepsRoutes run ↔ ∀ e ∈ run, e.Lone := by
  constructor
  · intro hk e he
    exact e.keeps_iff.mp (hk e he).1
  · exact h.keepsRoutes

/-- In every market, a swap with one route of each variant keeps them. -/
theorem Single.keepsRoutes {s : Swap} {run : List Execution} (hs : s.Single) (h : Run s run) : s.KeepsRoutes run := by
  refine h.keepsRoutes ?_
  induction run generalizing s with
  | nil => simp
  | cons e rest ih =>
    obtain ⟨rfl,hrest⟩ := h
    intro e' he'
    rcases List.mem_cons.mp he' with rfl | he'
    · exact e'.lone_of_single hs
    · exact ih (e.single_after hs) hrest e' he'

end

section

attribute [local instance] Crates.plain

def first : SwapRoute := .fin ⟨"first"⟩

def second : SwapRoute := .fin ⟨"second"⟩

def thorchain : SwapRoute := .thorchain ⟨none,none,some "rj",some 10,none⟩

/-- A call in which one pair returns 99 and all others 98. -/
def favouring (pair : Addr) : Deps := pairs 1000 fun p => if p=pair then 99 else 98

def clock : Env := ⟨⟨1,⟨1⟩⟩,"strategy"⟩

def buyAt (pair : Addr) : List CosmosMsg := [.wasmExecute pair (.finSwap 90) [⟨100,"rune"⟩]]

/-- The second pair is better once; when the first is better again, it is not quoted any more. -/
theorem losing_route_forgotten : ∃ run, Run (selling [first,second]) run ∧
    run.map Execution.messages=[buyAt "second",buyAt "second"] ∧
    ((selling [first,second]).offer (favouring "first") clock first).map output=some 99 ∧
    ((selling [first,second]).offer (favouring "first") clock second).map output=some 98 ∧
    ¬(selling [first,second]).KeepsRoutes run := by
  let once : Execution := ⟨selling [first,second],favouring "second",clock,buyAt "second",selling [second,second],
    by decide +kernel⟩
  let again : Execution := ⟨selling [second,second],favouring "first",clock,buyAt "second",selling [second,second],
    by decide +kernel⟩
  refine ⟨[once,again],⟨rfl,rfl,trivial⟩,rfl,by decide +kernel,by decide +kernel,fun h => ?_⟩
  exact absurd (h once (by simp)).1.1.routes (by decide)

theorem run_keeps_routes_iff_mixed : ∃ run, run.map Execution.messages=[buyAt "first",buyAt "first"] ∧
    ((selling [first,thorchain]).KeepsRoutes run ↔ ∀ e ∈ run, e.Lone) := by
  let once : Execution := ⟨selling [first,thorchain],favouring "first",clock,buyAt "first",selling [first,thorchain],
    by decide +kernel⟩
  have h : Run (selling [first,thorchain]) [once,once] := ⟨rfl,rfl,trivial⟩
  exact ⟨[once,once],rfl,run_keeps_routes_iff h⟩

end

end Swap
end CalcRs
