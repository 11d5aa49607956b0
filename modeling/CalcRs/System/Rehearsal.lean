import CalcRs.System.World

/-! Runs of the whole system that can be evaluated: one block, queries answered from the state, and a cast
of contracts outside whose reactions are given. -/
namespace CalcRs

/-- The accounts and contracts outside, and what they send when they are called. -/
structure Cast where
  outside : Addr → Bool
  reacts : Packet → List SubMsg

namespace World

/-- The queries about balances and registered strategies, answered from the state. -/
def deps (w : World) : Deps :=
  { Deps.withBalance w.bank with
    managerStrategy := fun _ a => match w.manager.strategies.get? a with
      | some strategy => .ok strategy
      | none => .error (.notFound "strategy") }

theorem deps_answers (site : Site) (w : World) : w.Answers site w.deps := by
  refine ⟨fun _ _ => rfl,fun a => ?_⟩
  simp only [deps]
  cases w.manager.strategies.get? a with
  | some strategy => rfl
  | none => exact ⟨_,rfl⟩

/-- The funds of a message are there. -/
def covers (w : World) (p : Packet) : Bool :=
  (p.funds.map Coin.denom).all fun x => amountIn x p.funds≤w.bank p.sender x

theorem covers_iff {w : World} {p : Packet} : w.covers p=true ↔ w.Covers p := by
  simp only [covers,List.all_eq_true,decide_eq_true_eq]
  refine ⟨fun h x => ?_,fun h x _ => h x⟩
  by_cases hx : x ∈ p.funds.map Coin.denom
  · exact h x hx
  · rw [amountIn_eq_zero hx]
    exact Nat.zero_le _

end World

section

variable [Crates]

namespace Site

/-- The calls that are made in a block. -/
def call (site : Site) (block : BlockInfo) (cast : Cast) (w : World) (p : Packet) (target : Addr) (body : Body)
    (funds : List Coin) : Option (World × List Packet) :=
  let paid := w.charge p
  if target=site.manager then do
    let msg ← body.toManager
    let (storage,response) ← (ManagerContract.execute paid.deps ⟨block,target⟩ ⟨p.sender,funds⟩ w.manager msg).toOption
    return ({ paid with manager := storage },response.messages.map (Packet.mk target))
  else if target=site.scheduler then do
    let msg ← body.toScheduler
    let (triggers,messages) ← (SchedulerContract.execute paid.deps ⟨block,target⟩ ⟨p.sender,funds⟩ w.triggers msg).toOption
    return ({ paid with triggers := triggers },messages.map (Packet.mk target))
  else match w.strategies target with
    | some s => do
      let msg ← body.toStrategy
      let (s',response) ←
        (StrategyContract.execute MAX_STRATEGY_SIZE paid.deps ⟨block,target⟩ ⟨p.sender,funds⟩ s msg).toOption
      return ({ paid with strategies := Function.update w.strategies target (some s') },
        response.messages.map (Packet.mk target))
    | none => if cast.outside target then some (paid,(cast.reacts p).map (Packet.mk target)) else none

/-- The deliveries of a block. -/
def deliver (site : Site) (block : BlockInfo) (cast : Cast) (w : World) (p : Packet) : Option (World × List Packet) :=
  if w.covers p=false then none
  else match p.sub.msg with
    | .bankSend _ _ => some (w.charge p,[])
    | .deposit _ => some (w.charge p,[])
    | .wasmExecute target body funds => site.call block cast w p target body funds
    | .instantiate2 _ codeId _ salt msg funds =>
      let target := Crates.instantiate2Address codeId site.manager salt
      if p.sender=site.manager ∧ target≠site.manager ∧ target≠site.scheduler ∧ w.strategies target=none then do
        let (s,response) ← (StrategyContract.instantiate ⟨block,target⟩ ⟨p.sender,funds⟩ msg).toOption
        return ({ w.charge p with strategies := Function.update w.strategies target (some s) },
          response.messages.map (Packet.mk target))
      else none

variable {site : Site} {block : BlockInfo} {cast : Cast} {w w' : World} {p : Packet} {out : List Packet}

theorem call_delivers (hcast : ∀ a, cast.outside a=true → site.Outside a) {target : Addr} {body : Body}
    {funds : List Coin} (hmsg : p.sub.msg=.wasmExecute target body funds) (hc : w.Covers p)
    (h : site.call block cast w p target body funds=some (w',out)) : site.Delivers w p w' out := by
  unfold call at h
  simp only at h
  by_cases hm : target=site.manager
  · rw [if_pos hm] at h
    obtain ⟨msg,hbody,h⟩ := Option.bind_eq_some_iff.mp h
    obtain ⟨⟨storage,response⟩,he,h⟩ := Option.bind_eq_some_iff.mp h
    cases h
    subst hm
    exact .manager hmsg hc hbody (World.deps_answers site _) rfl (Except.toOption_eq_some.mp he)
  rw [if_neg hm] at h
  by_cases hs : target=site.scheduler
  · rw [if_pos hs] at h
    obtain ⟨msg,hbody,h⟩ := Option.bind_eq_some_iff.mp h
    obtain ⟨⟨triggers,messages⟩,he,h⟩ := Option.bind_eq_some_iff.mp h
    cases h
    subst hs
    exact .scheduler hmsg hc hbody (World.deps_answers site _) rfl (Except.toOption_eq_some.mp he)
  · rw [if_neg hs] at h
    cases hst : w.strategies target with
    | some s =>
      simp only [hst] at h
      obtain ⟨msg,hbody,h⟩ := Option.bind_eq_some_iff.mp h
      obtain ⟨⟨s',response⟩,he,h⟩ := Option.bind_eq_some_iff.mp h
      cases h
      exact .strategy hmsg hc hst hbody (World.deps_answers site _) rfl (Except.toOption_eq_some.mp he)
    | none =>
      simp only [hst] at h
      split_ifs at h with ho
      cases h
      refine .outside (by rw [Packet.receiver,hmsg]) (hcast target ho) hc fun q hq => ?_
      obtain ⟨_,_,rfl⟩ := List.mem_map.mp hq
      rfl

/-- What is delivered here may be delivered. -/
theorem deliver_delivers (hcast : ∀ a, cast.outside a=true → site.Outside a)
    (h : site.deliver block cast w p=some (w',out)) : site.Delivers w p w' out := by
  unfold deliver at h
  split_ifs at h with hc
  have hc : w.Covers p := World.covers_iff.mp (by simpa using hc)
  cases hmsg : p.sub.msg with
  | bankSend target amount =>
    simp only [hmsg] at h
    cases h
    exact .send hmsg hc
  | deposit msg =>
    simp only [hmsg] at h
    cases h
    exact .deposit hmsg hc
  | wasmExecute target body funds =>
    simp only [hmsg] at h
    exact call_delivers hcast hmsg hc h
  | instantiate2 admin codeId label salt msg funds =>
    simp only [hmsg] at h
    split_ifs at h with hi
    obtain ⟨⟨s,response⟩,he,h⟩ := Option.bind_eq_some_iff.mp h
    cases h
    exact .instantiate hmsg hi.1 hc rfl hi.2.1 hi.2.2.1 hi.2.2.2 (Except.toOption_eq_some.mp he)

theorem replies_nothing (p : Packet) (ok : Bool) : site.Replies p ok [] := by
  cases ok with
  | true =>
    have hok : (Except.ok () : Except String Unit).isOk=true := rfl
    exact .strategy hok rfl
  | false =>
    have herr : (Except.error "" : Except String Unit).isOk=false := rfl
    exact .strategy herr rfl

/-- The machine runs as the block goes; a message may be refused only when its funds are missing. -/
def player (site : Site) (block : BlockInfo) (cast : Cast) (allows : World → Packet → List Packet → Bool) :
    Dispatch.Player World Packet where
  deliver := site.deliver block cast
  allows := allows
  caught w p := p.sub.replyOn.asks false && !w.covers p

theorem player_sound {C : Dispatch.Conduct World Packet} {allows : World → Packet → List Packet → Bool}
    (hcast : ∀ a, cast.outside a=true → site.Outside a) (hcalls : ∀ {w p ps}, allows w p ps=true → C.calls w p ps)
    (hfails : ∀ {w p}, ¬w.Covers p → C.fails w p) : (site.player block cast allows).Sound site.machine C where
  deliver h := deliver_delivers hcast h
  allows h := hcalls h
  caught h := by
    simp only [player,Bool.and_eq_true,Bool.not_eq_true'] at h
    exact ⟨h.1,hfails fun hc => by simp [World.covers_iff.mpr hc] at h⟩
  silent p ok := replies_nothing p ok

end Site

end

namespace Site

attribute [local instance] Crates.plain

def town : Site := ⟨"manager","scheduler",by decide⟩

/-- Under the plain derivation every strategy has an address below that of the manager. -/
theorem town_outside {a : Addr} (hs : a≠"scheduler") (hm : a.toList.head?≠some 'm') : town.Outside a := by
  refine ⟨fun h => hm (by rw [h]; rfl),hs,fun codeId salt h => hm ?_⟩
  have hhead : ("manager" ++ "/" ++ toString salt).toList.head?=some 'm' := by
    rw [String.append_assoc,String.toList_append]
    rfl
  rw [h]
  exact hhead

/-- A chain on which everybody owns a hundred of every denom, with these triggers. -/
def wealthy (triggers : Table ℕ Trigger) : World :=
  ⟨fun _ _ => 100,⟨⟨"fees",1⟩,0,Table.empty⟩,triggers,fun _ => none⟩

/-- The people of the town; its contracts have these reactions. -/
def townsfolk (reacts : Packet → List SubMsg) : Cast := ⟨fun a => a≠"scheduler" && a.toList.head?≠some 'm',reacts⟩

theorem townsfolk_outside {reacts : Packet → List SubMsg} (a : Addr) (h : (townsfolk reacts).outside a=true) :
    town.Outside a := by
  simp only [townsfolk,Bool.and_eq_true,decide_eq_true_eq] at h
  exact town_outside h.1 h.2

end Site
end CalcRs
