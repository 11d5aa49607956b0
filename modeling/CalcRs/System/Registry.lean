import CalcRs.System.Commands
import Mathlib.Algebra.BigOperators.Group.Finset.Basic
import Mathlib.Order.Interval.Finset.Nat

/-! The registry against the chain. A strategy is registered before it is created, in the same transaction: each
registration is a claim on an address, and two claims on one address cannot both be met. -/
namespace CalcRs

/-- What never changes of a registered strategy. -/
structure Identity where
  id : ℕ
  source : Option String
  owner : Addr
  contractAddress : Addr
  createdAt : ℕ
  deriving DecidableEq

/-- A roll of identities that are numbered as they come. Each entry answers a claim on its address. -/
structure Roll (entries : Addr → Option Identity) (claims : Addr → List Addr) (counter : ℕ) : Prop where
  claimed : ∀ a, (entries a).isSome ↔ claims a≠[]
  owned : ∀ a e, entries a=some e → ∀ owner, claims a=[owner] → owner=e.owner
  entry : ∀ a e, entries a=some e → e.contractAddress=a ∧ 1 ≤ e.id ∧ e.id≤counter
  distinct : ∀ a b e f, entries a=some e → entries b=some f → e.id=f.id → a=b
  counted : ∃ support : Finset Addr, (∀ a, a ∈ support ↔ (entries a).isSome) ∧ ∑ a ∈ support, (claims a).length=counter

namespace Roll

variable {entries : Addr → Option Identity} {claims claims' : Addr → List Addr} {counter : ℕ}

theorem empty : Roll (fun _ => none) (fun _ => []) 0 where
  claimed := by simp
  owned := by simp
  entry := by simp
  distinct := by simp
  counted := ⟨∅,by simp,rfl⟩

/-- The order of the claims does not matter. -/
theorem perm (h : Roll entries claims counter) (hp : ∀ a, (claims' a).Perm (claims a)) : Roll entries claims' counter where
  claimed a := by
    rw [h.claimed,not_iff_not]
    exact ⟨fun he => List.perm_nil.mp (he ▸ hp a),fun he => (List.perm_nil.mp (he ▸ (hp a).symm))⟩
  owned a e he owner hc := h.owned a e he owner (List.perm_singleton.mp (hc ▸ (hp a).symm))
  entry := h.entry
  distinct := h.distinct
  counted := by
    obtain ⟨support,hmem,hsum⟩ := h.counted
    exact ⟨support,hmem,hsum ▸ Finset.sum_congr rfl fun a _ => (hp a).length_eq⟩

/-- A new claim on an address, which takes the place of what is entered there. -/
theorem enter (h : Roll entries claims counter) {a : Addr} {e : Identity} (ha : e.contractAddress=a)
    (hid : e.id=counter+1) (hp : ∀ b, (claims' b).Perm ((if b=a then [e.owner] else []) ++ claims b)) :
    Roll (Function.update entries a (some e)) claims' (counter+1) where
  claimed b := by
    by_cases hb : b=a
    · subst hb
      have hlen : (claims' b).length=1+(claims b).length := by simpa [Nat.add_comm] using (hp b).length_eq
      simp only [Function.update_self,Option.isSome_some,true_iff]
      intro he
      rw [he,List.length_nil] at hlen
      omega
    · have hp := hp b
      rw [if_neg hb,List.nil_append] at hp
      rw [Function.update_of_ne hb,h.claimed,not_iff_not]
      exact ⟨fun he => List.perm_nil.mp (he ▸ hp),fun he => (List.perm_nil.mp (he ▸ hp.symm))⟩
  owned b f hf owner hc := by
    have hp := hp b
    rw [hc] at hp
    by_cases hb : b=a
    · subst hb
      obtain rfl : e=f := by simpa using hf
      rw [if_pos rfl] at hp
      have hlist := List.perm_singleton.mp hp.symm
      exact (List.cons.inj hlist).1.symm
    · rw [if_neg hb,List.nil_append] at hp
      rw [Function.update_of_ne hb] at hf
      exact h.owned b f hf owner (List.perm_singleton.mp hp.symm)
  entry b f hf := by
    by_cases hb : b=a
    · subst hb
      obtain rfl : e=f := by simpa using hf
      exact ⟨ha,by omega,by omega⟩
    · rw [Function.update_of_ne hb] at hf
      obtain ⟨hc,hone,hle⟩ := h.entry b f hf
      exact ⟨hc,hone,by omega⟩
  distinct b c f g hf hg hfg := by
    by_cases hb : b=a <;> by_cases hc : c=a
    · exact hb.trans hc.symm
    · rw [Function.update_of_ne hc] at hg
      obtain rfl : e=f := by simpa [hb] using hf
      have := (h.entry c g hg).2.2
      omega
    · rw [Function.update_of_ne hb] at hf
      obtain rfl : e=g := by simpa [hc] using hg
      have := (h.entry b f hf).2.2
      omega
    · rw [Function.update_of_ne hb] at hf
      rw [Function.update_of_ne hc] at hg
      exact h.distinct b c f g hf hg hfg
  counted := by
    obtain ⟨support,hmem,hsum⟩ := h.counted
    refine ⟨insert a support,fun b => ?_,?_⟩
    · by_cases hb : b=a
      · simp [hb]
      · rw [Function.update_of_ne hb,Finset.mem_insert,← hmem]
        simp [hb]
    · have hlen : ∀ b, (claims' b).length=(claims b).length+if b=a then 1 else 0 := fun b => by
        rw [(hp b).length_eq,List.length_append,Nat.add_comm]
        split_ifs <;> rfl
      have hnone : a ∉ support → (claims a).length=0 := fun hn => by
        rw [hmem,h.claimed,not_not] at hn
        rw [hn]
        rfl
      rw [Finset.sum_congr rfl fun b _ => hlen b,Finset.sum_add_distrib,Finset.sum_insert_of_eq_zero_if_notMem hnone,hsum,
        Finset.sum_ite_eq',if_pos (Finset.mem_insert_self a support)]

/-- Where no claim is contested the entries have the numbers from one on, each once. -/
theorem settled (h : Roll entries claims counter) (hone : ∀ a, (claims a).length ≤ 1) :
    ∀ id, 1 ≤ id ∧ id≤counter ↔ ∃ a e, entries a=some e ∧ e.id=id := by
  obtain ⟨support,hmem,hsum⟩ := h.counted
  have hcard : support.card=counter := by
    rw [← hsum,Finset.card_eq_sum_ones]
    refine Finset.sum_congr rfl fun a ha => ?_
    have hne := (h.claimed a).mp ((hmem a).mp ha)
    have := List.length_pos_iff.mpr hne
    have := hone a
    omega
  let number := fun a => ((entries a).map Identity.id).getD 0
  have hnumber : ∀ {a e}, entries a=some e → number a=e.id := fun he => by simp [number,he]
  have hsub : support.image number ⊆ Finset.Icc 1 counter := fun n hn => by
    obtain ⟨a,ha,rfl⟩ := Finset.mem_image.mp hn
    obtain ⟨e,he⟩ := Option.isSome_iff_exists.mp ((hmem a).mp ha)
    rw [hnumber he]
    exact Finset.mem_Icc.mpr (h.entry a e he).2
  have hinj : Set.InjOn number support := fun a ha b hb hab => by
    obtain ⟨e,he⟩ := Option.isSome_iff_exists.mp ((hmem a).mp ha)
    obtain ⟨f,hf⟩ := Option.isSome_iff_exists.mp ((hmem b).mp hb)
    rw [hnumber he,hnumber hf] at hab
    exact h.distinct a b e f he hf hab
  have himage : support.image number=Finset.Icc 1 counter := Finset.eq_of_subset_of_card_le hsub <| by
    rw [Finset.card_image_of_injOn hinj,hcard,Nat.card_Icc,Nat.add_sub_cancel]
  intro id
  rw [← Finset.mem_Icc,← himage,Finset.mem_image]
  constructor
  · rintro ⟨a,ha,rfl⟩
    obtain ⟨e,he⟩ := Option.isSome_iff_exists.mp ((hmem a).mp ha)
    exact ⟨a,e,he,(hnumber he).symm⟩
  · rintro ⟨a,e,he,rfl⟩
    exact ⟨a,(hmem a).mpr (Option.isSome_iff_exists.mpr ⟨e,he⟩),hnumber he⟩

end Roll

section

variable [Crates]

def Strategy.identity (s : Strategy) : Identity := ⟨s.id,s.source,s.owner,s.contractAddress,s.createdAt⟩

/-- A new chain. -/
structure World.Vacant (w : World) : Prop where
  strategies : ∀ a, w.strategies a=none
  registry : w.manager.strategies=Table.empty
  counter : w.manager.strategyCounter=0

theorem StrategyContract.execute_keeps {gas : ℕ} {deps : Deps} {env : Env} {info : MessageInfo} {s s' : StrategyStorage}
    {msg : StrategyExecuteMsg} {response : StrategyResponse} (h : execute gas deps env info s msg=.ok (s',response)) :
    s'.manager=s.manager ∧ s'.owner=s.owner ∧ s'.affiliates=s.affiliates := by
  obtain ⟨deposits,h⟩ := execute_eq_ok h
  cases h with
  | withdraw _ hw =>
    obtain ⟨_,rfl⟩ := withdraw_keeps hw
    exact ⟨rfl,rfl,rfl⟩
  | _ => exact ⟨rfl,rfl,rfl⟩

namespace Site

variable {site : Site} {w w' : World} {p : Packet} {out ps : List Packet} {a : Addr}

/-- The owner that a message creates the strategy for. -/
def founds (site : Site) (a : Addr) (p : Packet) : Option Addr := (site.creation a p).map StrategyInstantiateMsg.owner

/-- The owners that claim the address: of the strategy there, and of those that are to be created there. -/
def claimants (site : Site) (w : World) (ps : List Packet) (a : Addr) : List Addr :=
  ((w.strategies a).map StrategyStorage.owner).toList ++ ps.filterMap (site.founds a)

/-- The claim that a call of the manager makes. -/
def claim (site : Site) (a : Addr) (e : Packet × List Packet) : List Addr :=
  match site.toManager e.1 with
  | some (.instantiate ..) => e.2.filterMap (site.founds a)
  | _ => []

theorem founds_sender {owner : Addr} (h : site.founds a p=some owner) : p.sender=site.manager := by
  obtain ⟨msg,h,_⟩ := Option.map_eq_some_iff.mp h
  unfold creation at h
  split at h
  · split_ifs at h with hp
    exact hp.1
  · cases h

theorem founds_others (h : ∀ q ∈ out, q.sender≠site.manager) : out.filterMap (site.founds a)=[] :=
  List.filterMap_eq_nil_iff.mpr fun q hq => Option.eq_none_iff_forall_ne_some.mpr fun _ hf => h q hq (founds_sender hf)

theorem founds_called {target : Addr} {body : Body} {funds : List Coin}
    (h : p.sub.msg=.wasmExecute target body funds) : site.founds a p=none := by simp [founds,creation,h]

theorem claimants_cons : site.claimants w (p :: ps) a=
    ((w.strategies a).map StrategyStorage.owner).toList ++ ((site.founds a p).toList ++ ps.filterMap (site.founds a)) := by
  cases h : site.founds a p <;> simp [claimants,h]

theorem claimants_append : site.claimants w (out ++ ps) a=
    ((w.strategies a).map StrategyStorage.owner).toList ++ (out.filterMap (site.founds a) ++ ps.filterMap (site.founds a)) := by
  rw [claimants,List.filterMap_append]

/-- A message that founds nothing and changes no owner leaves the claims as they are. -/
theorem claimants_quiet (hp : site.founds a p=none)
    (hs : (w'.strategies a).map StrategyStorage.owner=(w.strategies a).map StrategyStorage.owner) :
    (site.claimants w' (out ++ ps) a).Perm (out.filterMap (site.founds a) ++ site.claimants w (p :: ps) a) := by
  rw [claimants_append,claimants_cons,hp,hs,← List.append_assoc,Option.toList_none,List.nil_append,← List.append_assoc]
  exact List.perm_append_comm.append_right _

/-- Without a call of the manager its storage stays. -/
theorem Delivers.manager_unasked (hd : site.Delivers w p w' out) (hm : site.toManager p=none) : w'.manager=w.manager := by
  cases hd with
  | manager hmsg _ hbody _ _ _ => simp [toManager,hmsg,hbody] at hm
  | _ => rfl

/-- A delivery turns a claim of a pending creation into that of the new strategy, and only the manager makes claims. -/
theorem Housed.claims (h : site.Housed w (p :: ps)) (hd : site.Delivers w p w' out) :
    (site.claimants w' (out ++ ps) a).Perm (site.claim a (p,out) ++ site.claimants w (p :: ps) a) := by
  have hclaim : ∀ {msg}, site.toManager p=some msg → (∀ source owner label affiliates nodes,
      msg≠.instantiate source owner label affiliates nodes) → site.claim a (p,out)=[] := fun {msg} hm hne => by
    rw [claim,hm]
    cases msg with
    | instantiate source owner label affiliates nodes => exact absurd rfl (hne source owner label affiliates nodes)
    | _ => rfl
  have hquiet : site.toManager p=none → (∀ q ∈ out, q.sender≠site.manager) → site.founds a p=none →
      (w'.strategies a).map StrategyStorage.owner=(w.strategies a).map StrategyStorage.owner →
      (site.claimants w' (out ++ ps) a).Perm (site.claim a (p,out) ++ site.claimants w (p :: ps) a) := fun hm hq hp hs => by
    have hout := founds_others (a := a) hq
    have hnone : site.claim a (p,out)=[] := by rw [claim,hm]
    rw [hnone]
    exact hout ▸ claimants_quiet hp hs
  have hsenders := fun hm => h.senders hd hm
  cases hd with
  | send hm _ =>
    have hnone : site.toManager p=none := by simp [toManager,hm]
    exact hquiet hnone (hsenders hnone) (by simp [founds,creation,hm]) rfl
  | deposit hm _ =>
    have hnone : site.toManager p=none := by simp [toManager,hm]
    exact hquiet hnone (hsenders hnone) (by simp [founds,creation,hm]) rfl
  | @manager body funds msg deps env storage response hm _ hbody _ henv he =>
    have hmsg : site.toManager p=some msg := by simp [toManager,hm,hbody]
    have hcalled : (site.claimants { w.charge p with manager := storage }
        (response.messages.map (Packet.mk site.manager) ++ ps) a).Perm
        ((response.messages.map (Packet.mk site.manager)).filterMap (site.founds a) ++ site.claimants w (p :: ps) a) :=
      claimants_quiet (founds_called hm) rfl
    cases ManagerContract.execute_accepts he with
    | instantiate =>
      rw [claim,hmsg]
      exact hcalled
    | _ =>
      rw [hclaim hmsg (by simp)]
      exact hcalled
  | scheduler hm _ _ _ _ _ =>
    have hnone : site.toManager p=none := by simp [toManager,hm,site.distinct.symm]
    exact hquiet hnone (hsenders hnone) (founds_called hm) rfl
  | @strategy target _ _ _ _ _ _ s s' _ hm _ hs _ _ _ he =>
    have hne : target≠site.manager := (h.home target s hs).1.1
    have hnone : site.toManager p=none := by simp [toManager,hm,hne]
    refine hquiet hnone (hsenders hnone) (founds_called hm) ?_
    by_cases hat : a=target
    · subst hat
      simp only [Function.update_self,hs,Option.map_some,Option.some.injEq]
      exact (StrategyContract.execute_keeps he).2.1
    · simp only [Function.update_of_ne hat]
  | @instantiate admin codeId label salt msg funds env s response hm hsender _ henv hman hsch hfree hi =>
    have hnone : site.toManager p=none := by simp [toManager,hm]
    obtain ⟨rfl,rfl⟩ := StrategyContract.instantiate_eq_ok hi
    by_cases hat : a=env.contract
    · subst hat
      have hfounds : site.founds env.contract p=some msg.owner := by simp [founds,creation,hm,hsender,henv]
      have hout := founds_others (a := env.contract) (hsenders hnone)
      have hclaims : site.claim env.contract (p,[callSelf env (.init msg.nodes)].map (Packet.mk env.contract))=[] := by
        rw [claim,hnone]
      rw [hclaims,claimants_append,claimants_cons,hfounds,hfree,hout]
      simp
    · refine hquiet hnone (hsenders hnone) ?_ ?_
      · have hne : Crates.instantiate2Address codeId site.manager salt≠a := fun he => hat (by rw [henv,he])
        simp [founds,creation,hm,hne]
      · simp only [Function.update_of_ne hat]
  | @outside target _ hr ho _ hq =>
    have hnone : site.toManager p=none := by
      unfold toManager
      split
      · rename_i hm
        rw [Packet.receiver,hm] at hr
        exact if_neg fun ht => ho.1 ((Option.some.inj hr).symm.trans ht)
      · rfl
    refine hquiet hnone (hsenders hnone) ?_ rfl
    refine Option.eq_none_iff_forall_ne_some.mpr fun owner hf => ?_
    obtain ⟨msg,hcr,_⟩ := Option.map_eq_some_iff.mp hf
    unfold creation at hcr
    split at hcr
    · split_ifs at hcr with hp
      rename_i hm
      rw [Packet.receiver,hm,hp.1] at hr
      exact ho.2.2 _ _ (Option.some.inj hr).symm
    · cases hcr

/-- Each accepted call of the manager enters the strategy that it claims an address for, or changes no identity. -/
theorem Housed.enters (h : site.Housed w (p :: ps)) (hd : site.Delivers w p w' out) :
    (∃ b e, e.contractAddress=b ∧ e.id=w.manager.strategyCounter+1 ∧ w'.manager.strategyCounter=e.id ∧
      (fun a => (w'.manager.strategies.get? a).map Strategy.identity)=
        Function.update (fun a => (w.manager.strategies.get? a).map Strategy.identity) b (some e) ∧
      ∀ a, site.claim a (p,out)=if a=b then [e.owner] else []) ∨
    w'.manager.strategyCounter=w.manager.strategyCounter ∧
      (fun a => (w'.manager.strategies.get? a).map Strategy.identity)=
        (fun a => (w.manager.strategies.get? a).map Strategy.identity) ∧ ∀ a, site.claim a (p,out)=[] := by
  cases hm : site.toManager p with
  | none =>
    refine .inr ⟨?_,?_,fun a => by rw [claim,hm]⟩ <;> rw [hd.manager_unasked hm]
  | some msg =>
    obtain ⟨deps,env,storage,response,henv,he,rfl,rfl⟩ := h.to_manager hd hm
    have hkept : ∀ {b strategy strategy'}, w.manager.strategies.get? b=some strategy →
        strategy'.identity=strategy.identity →
        (fun a => ((w.manager.strategies.insert b strategy').get? a).map Strategy.identity)=
          fun a => (w.manager.strategies.get? a).map Strategy.identity := fun {b strategy strategy'} hg hi => by
      funext a
      rw [Table.get?_insert]
      split_ifs with hab
      · rw [hab,hg,Option.map_some,Option.map_some,hi]
      · rfl
    cases he with
    | @instantiate source owner label affiliates nodes creator b total id salt _ _ _ _ hid _ _ hb =>
      refine .inl ⟨b,⟨id,source,creator,b,env.block.time.seconds⟩,rfl,hid,rfl,?_,fun a => ?_⟩
      · funext a
        simp only [ManagerContract.save,Table.get?_insert,Function.update_apply]
        split_ifs <;> rfl
      · rw [claim,hm,List.map_singleton]
        simp only [List.filterMap_cons,founds,creation,List.filterMap_nil]
        by_cases hab : a=b
        · simp [hab,henv ▸ hb.symm]
        · simp [hab,henv ▸ hb.symm,Ne.symm hab]
    | execute hg _ => exact .inr ⟨rfl,hkept hg rfl,fun a => by rw [claim,hm]⟩
    | update hg _ => exact .inr ⟨rfl,hkept hg rfl,fun a => by rw [claim,hm]⟩
    | updateStatus hg _ => exact .inr ⟨rfl,hkept hg rfl,fun a => by rw [claim,hm]⟩
    | updateLabel _ hg _ => exact .inr ⟨rfl,hkept hg rfl,fun a => by rw [claim,hm]⟩

/-- The registry is the roll of the claims. -/
structure Enrolled (site : Site) (w : World) (ps : List Packet) : Prop where
  housed : site.Housed w ps
  roll : Roll (fun a => (w.manager.strategies.get? a).map Strategy.identity) (site.claimants w ps) w.manager.strategyCounter

theorem founds_silent (h : site.Housed w (p :: ps)) (hc : p.sub.replyOn.asks false=true) : site.founds a p=none := by
  refine Option.eq_none_iff_forall_ne_some.mpr fun owner hf => ?_
  rw [h.silent p List.mem_cons_self (founds_sender hf)] at hc
  cases hc

theorem Enrolled.keeps (site : Site) : Dispatch.Keeps site.machine Dispatch.Conduct.any (Enrolled site) where
  call {w w' p ps out} h hcalls hd := by
    refine ⟨(Housed.keeps site).call h.housed hcalls hd,?_⟩
    have hclaims := fun a => h.housed.claims (a := a) hd
    rcases h.housed.enters hd with ⟨b,e,hb,hid,hcounter,hentries,hclaim⟩ | ⟨hcounter,hentries,hclaim⟩
    · rw [hentries,hcounter,hid]
      exact h.roll.enter hb hid fun a => hclaim a ▸ hclaims a
    · rw [hentries,hcounter]
      refine h.roll.perm fun a => ?_
      have := hclaims a
      rwa [hclaim a,List.nil_append] at this
  reply {w p ok ps out} h hr := by
    refine ⟨(Housed.keeps site).reply h.housed hr,h.roll.perm fun a => ?_⟩
    rw [claimants_append,founds_others fun q hq => (Replies.senders hr q hq).1]
    exact .refl _
  drop {w p ps} h hc hf := by
    refine ⟨(Housed.keeps site).drop h.housed hc hf,h.roll.perm fun a => ?_⟩
    rw [claimants_cons,founds_silent h.housed hc]
    exact .refl _

theorem Enrolled.begins (h : site.Enrolled w []) (ho : site.Outside p.sender) : site.Enrolled w [p] := by
  refine ⟨h.housed.begins ho,h.roll.perm fun a => ?_⟩
  have hnone : site.founds a p=none := Option.eq_none_iff_forall_ne_some.mpr fun _ hf => ho.1 (founds_sender hf)
  rw [claimants_cons,hnone]
  exact .refl _

theorem Enrolled.vacant (h : w.Vacant) : site.Enrolled w [] := by
  refine ⟨Housed.vacant h.strategies h.registry,?_⟩
  have hentries : (fun a => (w.manager.strategies.get? a).map Strategy.identity)=fun _ => none := by
    funext a
    rw [h.registry]
    rfl
  have hclaims : site.claimants w []=fun _ => [] := by
    funext a
    rw [claimants,h.strategies]
    rfl
  rw [hentries,hclaims,h.counter]
  exact Roll.empty

theorem Enrolled.reached {w₀ : World} (h₀ : site.Enrolled w₀ [])
    (h : Dispatch.Reachable site.machine Dispatch.Conduct.any w₀ ⟨w,[]⟩) : site.Enrolled w [] :=
  (h.holds (Enrolled.keeps site) (fun hw hb => hw.begins hb) h₀).1.now

/-- Between transactions the claims are those of the strategies. -/
theorem claimants_settled : site.claimants w [] a=((w.strategies a).map StrategyStorage.owner).toList := by
  rw [claimants,List.filterMap_nil,List.append_nil]

/-- Between transactions the registry mirrors the chain: the strategies that are registered are those that exist, under
their addresses and with their owners, and they have the numbers from one to the counter, each once. -/
theorem registry_mirrors_chain {w₀ : World} (h₀ : w₀.Vacant)
    (h : Dispatch.Reachable site.machine Dispatch.Conduct.any w₀ ⟨w,[]⟩) :
    (∀ a, (w.manager.strategies.get? a).isSome=(w.strategies a).isSome) ∧
    (∀ a strategy s, w.manager.strategies.get? a=some strategy → w.strategies a=some s →
      strategy.contractAddress=a ∧ strategy.owner=s.owner ∧ s.manager=site.manager) ∧
    ∀ id, 1 ≤ id ∧ id≤w.manager.strategyCounter ↔ ∃! a, ∃ strategy, w.manager.strategies.get? a=some strategy ∧
      strategy.id=id := by
  have henrolled := (Enrolled.vacant h₀).reached h
  have hroll := henrolled.roll
  have hone : ∀ a, (site.claimants w [] a).length ≤ 1 := fun a => by
    rw [claimants_settled]
    cases w.strategies a <;> simp
  refine ⟨fun a => ?_,fun a strategy s hg hs => ?_,fun id => ?_⟩
  · have hclaimed := hroll.claimed a
    rw [claimants_settled,Option.isSome_map] at hclaimed
    cases hs : w.strategies a with
    | none => simpa [hs] using hclaimed
    | some s => simpa [hs] using hclaimed
  · have he : (w.manager.strategies.get? a).map Strategy.identity=some strategy.identity := by rw [hg,Option.map_some]
    exact ⟨(hroll.entry a _ he).1,(hroll.owned a _ he s.owner (by rw [claimants_settled,hs]; rfl)).symm,
      (henrolled.housed.home a s hs).2⟩
  · rw [hroll.settled hone]
    constructor
    · rintro ⟨a,e,he,rfl⟩
      obtain ⟨strategy,hg,rfl⟩ := Option.map_eq_some_iff.mp he
      refine ⟨a,⟨strategy,hg,rfl⟩,fun b hb => ?_⟩
      obtain ⟨strategy',hg',hid⟩ := hb
      exact hroll.distinct b a _ _ (by rw [hg',Option.map_some]) he hid
    · rintro ⟨a,⟨strategy,hg,rfl⟩,_⟩
      exact ⟨a,strategy.identity,by rw [hg,Option.map_some],rfl⟩

/-- The identities of the first registry are kept, as long as no address is claimed twice. -/
structure Retained (site : Site) (m₀ : ManagerStorage) (w : World) (ps : List Packet) : Prop where
  enrolled : site.Enrolled w ps
  claimed : ∀ a, (m₀.strategies.get? a).isSome → 1 ≤ (site.claimants w ps a).length
  kept : ∀ a strategy, m₀.strategies.get? a=some strategy → (site.claimants w ps a).length=1 →
    (w.manager.strategies.get? a).map Strategy.identity=some strategy.identity

theorem Retained.perm {m₀ : ManagerStorage} {qs : List Packet} (h : site.Retained m₀ w ps) (he : site.Enrolled w qs)
    (hp : ∀ a, (site.claimants w qs a).Perm (site.claimants w ps a)) : site.Retained m₀ w qs :=
  ⟨he,fun a ha => (hp a).length_eq ▸ h.claimed a ha,fun a strategy hg hone => h.kept a strategy hg ((hp a).length_eq ▸ hone)⟩

theorem Retained.keeps (site : Site) (m₀ : ManagerStorage) :
    Dispatch.Keeps site.machine Dispatch.Conduct.any (Retained site m₀) where
  call {w w' p ps out} h hcalls hd := by
    have hclaims := fun a => (h.enrolled.housed.claims (a := a) hd).length_eq
    simp only [List.length_append] at hclaims
    refine ⟨(Enrolled.keeps site).call h.enrolled hcalls hd,fun a ha => ?_,fun a strategy hg hone => ?_⟩
    · have := h.claimed a ha
      have := hclaims a
      omega
    · have hold := h.claimed a (by rw [hg]; rfl)
      have hsum := hclaims a
      have hkept := h.kept a strategy hg (by omega)
      rcases h.enrolled.housed.enters hd with ⟨b,e,_,_,_,hentries,hclaim⟩ | ⟨_,hentries,_⟩
      · have hab : a≠b := fun hab => by
          rw [hclaim,if_pos hab,List.length_singleton] at hsum
          omega
        have := congrFun hentries a
        rw [Function.update_of_ne hab] at this
        exact this.trans hkept
      · exact (congrFun hentries a).trans hkept
  reply {w p ok ps out} h hr := h.perm ((Enrolled.keeps site).reply h.enrolled hr) fun a => by
    rw [claimants_append,founds_others fun q hq => (Replies.senders hr q hq).1]
    exact .refl _
  drop {w p ps} h hc hf := h.perm ((Enrolled.keeps site).drop h.enrolled hc hf) fun a => by
    rw [claimants_cons,founds_silent h.enrolled.housed hc]
    exact .refl _

/-- What is registered stays registered under its identity: between transactions every address is claimed once. -/
theorem Enrolled.persists (h : site.Enrolled w [])
    (h' : Dispatch.Reachable site.machine Dispatch.Conduct.any w ⟨w',[]⟩) {strategy : CalcRs.Strategy}
    (hg : w.manager.strategies.get? a=some strategy) :
    ∃ strategy', w'.manager.strategies.get? a=some strategy' ∧ strategy'.identity=strategy.identity := by
  have hsome : ∀ b, (w.manager.strategies.get? b).isSome → 1 ≤ (site.claimants w [] b).length := fun b hb =>
    List.length_pos_iff.mpr ((h.roll.claimed b).mp (by rwa [Option.isSome_map]))
  have hstart : site.Retained w.manager w [] := ⟨h,hsome,fun b s hb _ => by rw [hb,Option.map_some]⟩
  have hretained := (h'.holds (Retained.keeps site w.manager) (fun {w p} hw hb => hw.perm (hw.enrolled.begins hb) fun a => by
    rw [claimants_cons,Option.eq_none_iff_forall_ne_some.mpr fun _ hf => hb.1 (founds_sender hf)]
    exact .refl _) hstart).1.now
  have hone : (site.claimants w' [] a).length=1 := by
    have := hretained.claimed a (by rw [hg]; rfl)
    change 1 ≤ (site.claimants w' [] a).length at this
    rw [claimants_settled] at this ⊢
    cases hs : w'.strategies a with
    | some s => rfl
    | none => simp [hs] at this
  exact Option.map_eq_some_iff.mp (hretained.kept a strategy hg hone)

/-- A strategy that is registered stays so, with its number, source, owner, address and time of creation. -/
theorem entries_persist {w₀ : World} (h₀ : w₀.Vacant)
    (h : Dispatch.Reachable site.machine Dispatch.Conduct.any w₀ ⟨w,[]⟩)
    (h' : Dispatch.Reachable site.machine Dispatch.Conduct.any w ⟨w',[]⟩) {strategy : CalcRs.Strategy}
    (hg : w.manager.strategies.get? a=some strategy) :
    ∃ strategy', w'.manager.strategies.get? a=some strategy' ∧ strategy'.identity=strategy.identity :=
  ((Enrolled.vacant h₀).reached h).persists h' hg

/-! ### The registry as the replay of the calls -/

/-- What the owner decides about a strategy. -/
structure Standing where
  owner : Addr
  label : String
  status : StrategyStatus
  deriving DecidableEq

def standing (s : CalcRs.Strategy) : Standing := ⟨s.owner,s.label,s.status⟩

/-- The standing after an accepted call. -/
def replay (site : Site) (a : Addr) (current : Option Standing) (e : Packet × List Packet) : Option Standing :=
  match site.toManager e.1 with
  | some (.instantiate _ owner label _ _) =>
    if e.2.any fun q => (site.creation a q).isSome then some ⟨owner.getD e.1.sender,label,.active⟩ else current
  | some (.updateStatus b status) => if b=a then current.map fun s => { s with status := status } else current
  | some (.updateLabel b label) => if b=a then current.map fun s => { s with label := label } else current
  | _ => current

/-- Only the owner decides, and only an active strategy is executed. -/
def permitted (site : Site) (a : Addr) (current : Option Standing) (e : Packet × List Packet) : Prop :=
  match site.toManager e.1 with
  | some (.execute b) => b=a → ∃ s, current=some s ∧ s.status=.active
  | some (.update b _) => b=a → ∃ s, current=some s ∧ s.owner=e.1.sender
  | some (.updateStatus b _) => b=a → ∃ s, current=some s ∧ s.owner=e.1.sender
  | some (.updateLabel b _) => b=a → ∃ s, current=some s ∧ s.owner=e.1.sender
  | _ => True

omit [Crates] in
theorem get?_standing {t : Table Addr CalcRs.Strategy} {b : Addr} {s : CalcRs.Strategy} :
    ((t.insert b s).get? a).map standing=if b=a then some (standing s) else (t.get? a).map standing := by
  rw [Table.get?_insert]
  by_cases hba : b=a
  · rw [if_pos hba,if_pos hba.symm]
    rfl
  · rw [if_neg hba,if_neg (Ne.symm hba)]

/-- An accepted call is permitted, and changes the standing as it says. -/
theorem accepts_replay {deps : Deps} {env : Env} {storage storage' : ManagerStorage} {msg : ManagerExecuteMsg}
    {response : ManagerResponse} (hm : site.toManager p=some msg) (henv : env.contract=site.manager)
    (h : ManagerContract.Accepts deps env ⟨p.sender,p.funds⟩ storage msg storage' response) :
    (storage'.strategies.get? a).map standing=site.replay a ((storage.strategies.get? a).map standing)
        (p,response.messages.map (Packet.mk site.manager)) ∧
      site.permitted a ((storage.strategies.get? a).map standing) (p,response.messages.map (Packet.mk site.manager)) := by
  have hfound : ∀ {b strategy}, storage.strategies.get? b=some strategy → b=a →
      (storage.strategies.get? a).map standing=some (standing strategy) := fun hg hb => by rw [← hb,hg,Option.map_some]
  cases h with
  | @instantiate source owner label affiliates nodes creator b total id salt hcreator _ _ _ _ _ _ hb =>
    refine ⟨?_,by rw [permitted,hm]; trivial⟩
    rw [replay,hm,ManagerContract.save,get?_standing]
    simp only [List.map_singleton,List.any_cons,List.any_nil,Bool.or_false]
    by_cases hba : b=a
    · have hc : (site.creation a ⟨site.manager,⟨.instantiate2 (some creator) storage.config.strategyCodeId label salt
          ⟨b,creator,ManagerContract.withCalc storage.config affiliates total,nodes⟩ p.funds,.never,0⟩⟩).isSome := by
        simp [creation,henv ▸ hb.symm,hba]
      rw [if_pos hba,if_pos hc,hcreator]
      rfl
    · have hc : ¬(site.creation a ⟨site.manager,⟨.instantiate2 (some creator) storage.config.strategyCodeId label salt
          ⟨b,creator,ManagerContract.withCalc storage.config affiliates total,nodes⟩ p.funds,.never,0⟩⟩).isSome := by
        simp [creation,henv ▸ hb.symm,hba]
      rw [if_neg hba,if_neg hc]
  | @execute b strategy hg hs =>
    refine ⟨?_,by rw [permitted,hm]; exact fun hb => ⟨_,hfound hg hb,hs⟩⟩
    rw [replay,hm,ManagerContract.save,get?_standing]
    by_cases hb : b=a
    · rw [if_pos hb]
      exact (hfound hg hb).symm
    · rw [if_neg hb]
  | @update b nodes strategy hg ho =>
    refine ⟨?_,by rw [permitted,hm]; exact fun hb => ⟨_,hfound hg hb,ho⟩⟩
    rw [replay,hm,ManagerContract.save,get?_standing]
    by_cases hb : b=a
    · rw [if_pos hb]
      exact (hfound hg hb).symm
    · rw [if_neg hb]
  | @updateStatus b status strategy hg ho =>
    refine ⟨?_,by rw [permitted,hm]; exact fun hb => ⟨_,hfound hg hb,ho⟩⟩
    rw [replay,hm,ManagerContract.save,get?_standing]
    by_cases hb : b=a
    · simp only [if_pos hb,hfound hg hb]
      rfl
    · simp only [if_neg hb]
  | @updateLabel b label strategy _ hg ho =>
    refine ⟨?_,by rw [permitted,hm]; exact fun hb => ⟨_,hfound hg hb,ho⟩⟩
    rw [replay,hm,ManagerContract.save,get?_standing]
    by_cases hb : b=a
    · simp only [if_pos hb,hfound hg hb]
      rfl
    · simp only [if_neg hb]

theorem Housed.replayed (h : site.Housed w (p :: ps)) (hd : site.Delivers w p w' out) :
    (w'.manager.strategies.get? a).map standing=site.replay a ((w.manager.strategies.get? a).map standing) (p,out) ∧
      site.permitted a ((w.manager.strategies.get? a).map standing) (p,out) := by
  cases hm : site.toManager p with
  | none =>
    rw [hd.manager_unasked hm,replay,permitted,hm]
    exact ⟨rfl,trivial⟩
  | some msg =>
    obtain ⟨deps,env,storage,response,henv,he,rfl,rfl⟩ := h.to_manager hd hm
    exact accepts_replay hm henv he

/-- At every point of every run the owner, the label and the status in the registry are what the calls that took effect so
far say, and each of these calls was made by the owner; an `Execute` was of an active strategy. -/
theorem registry_replays {w₀ : World} (h₀ : w₀.Vacant) {c : Dispatch.Config (World × Dispatch.History Packet) Packet}
    (h : Dispatch.Reachable site.machine.logging Dispatch.Conduct.any.recording (w₀,[]) c) (a : Addr) :
    (c.world.1.manager.strategies.get? a).map standing=c.world.2.foldl (site.replay a) none ∧
      c.world.2.Every fun before e => site.permitted a (before.foldl (site.replay a) none) e := by
  have hempty : (w₀.manager.strategies.get? a).map standing=none := by
    rw [h₀.registry]
    rfl
  rw [← hempty]
  exact h.replays (Housed.keeps site) (fun hw hb => hw.begins hb) (Housed.vacant h₀.strategies h₀.registry)
    fun hw hd => hw.replayed hd

end Site

end

namespace Site

attribute [local instance] Crates.plain

theorem wealthy_vacant : (wealthy Table.empty).Vacant := ⟨fun _ => rfl,rfl,rfl⟩

/-- The chain on which one strategy was created. -/
def founded : Option World :=
  (dawn fun _ => true).transact 6 (wealthy Table.empty) (asks (.instantiate none none "savings" [] []))

theorem founded_reachable {w : World} (h : founded=some w) :
    Dispatch.Reachable town.machine Dispatch.Conduct.any (wealthy Table.empty) ⟨w,[]⟩ :=
  (player_sound townsfolk_outside (fun _ => trivial) fun _ => trivial).transact .start (alice_outside _) h

theorem registry_mirrors_chain_founded : ∃ w, founded=some w ∧ (w.manager.strategies.get? "manager/21").isSome=true ∧
    (w.strategies "manager/21").isSome=true ∧
    ∃! a, ∃ strategy, w.manager.strategies.get? a=some strategy ∧ strategy.id=1 := by
  have hrun : founded.map (fun w => ((w.manager.strategies.get? "manager/21").isSome,w.manager.strategyCounter))=
      some (true,1) := by decide +kernel
  obtain ⟨w,hw,he⟩ := Option.map_eq_some_iff.mp hrun
  obtain ⟨hsome,hcounter⟩ := Prod.mk.inj he
  obtain ⟨hmirror,_,hids⟩ := registry_mirrors_chain wealthy_vacant (founded_reachable hw)
  exact ⟨w,hw,hsome,hmirror _ ▸ hsome,(hids 1).mp ⟨by decide,by rw [hcounter]⟩⟩

/-- The strategy is still there after it was suspended. -/
theorem entries_persist_suspended : ∃ w w' strategy strategy', founded=some w ∧
    (dawn fun _ => true).transact 4 w (asks (.updateStatus "manager/21" .paused))=some w' ∧
    w.manager.strategies.get? "manager/21"=some strategy ∧ w'.manager.strategies.get? "manager/21"=some strategy' ∧
    strategy'.identity=strategy.identity := by
  have hsound : (dawn fun _ => true).Sound town.machine Dispatch.Conduct.any :=
    player_sound townsfolk_outside (fun _ => trivial) fun _ => trivial
  have hrun : (founded.bind fun w => ((dawn fun _ => true).transact 4 w (asks (.updateStatus "manager/21" .paused))).map
      fun _ => (w.manager.strategies.get? "manager/21").isSome)=some true := by decide +kernel
  obtain ⟨w,hw,hrun⟩ := Option.bind_eq_some_iff.mp hrun
  obtain ⟨w',hw',hsome⟩ := Option.map_eq_some_iff.mp hrun
  obtain ⟨strategy,hg⟩ := Option.isSome_iff_exists.mp hsome
  obtain ⟨strategy',hg',hid⟩ := entries_persist wealthy_vacant (founded_reachable hw)
    (hsound.transact .start (alice_outside _) hw') hg
  exact ⟨w,w',strategy,strategy',hw,hw',hg,hg',hid⟩

theorem registry_replays_update : ∃ w history, chronicle=some (w,history) ∧
    (w.manager.strategies.get? "manager/21").map standing=some ⟨"alice","savings",.active⟩ ∧
    history.foldl (town.replay "manager/21") none=some ⟨"alice","savings",.active⟩ := by
  have hrun : chronicle.map (fun c => c.2.foldl (town.replay "manager/21") none)=
      some (some ⟨"alice","savings",.active⟩) := by decide +kernel
  obtain ⟨⟨w,history⟩,hc,hfold⟩ := Option.map_eq_some_iff.mp hrun
  exact ⟨w,history,hc,(registry_replays wealthy_vacant (chronicle_reachable hc) "manager/21").1.trans hfold,hfold⟩

end Site
end CalcRs
