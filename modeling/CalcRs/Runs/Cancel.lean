import CalcRs.Runs.Balances

/-! A cancelling run: it visits the stored nodes in their order, closes what they name and leaves no
order named. -/
namespace CalcRs

/-! ### One node -/

namespace Node

variable {deps : Deps} {env : Env} {node : Node} {slot : Slot}

theorem cancel_unnamed (h : node.named=none) : node.cancel deps env=.ok ([],node) := by
  cases node with
  | condition => rfl
  | action a i next =>
    cases a with
    | swap => rfl
    | distribute => rfl
    | limitOrder o =>
      have hc : o.currentOrder=none := FinLimitOrder.named_eq_none.mp h
      rw [cancel,Action.cancel,FinLimitOrder.cancel,hc]
      rfl

/-- The limit order behind a name. -/
theorem named_eq_some (h : node.named=some slot) : ∃ o i next current, node=.action (.limitOrder o) i next ∧
    o.currentOrder=some current ∧ slot=⟨o.pairAddress,o.side,current.price⟩ := by
  cases node with
  | condition => cases h
  | action a i next =>
    cases a with
    | swap => cases h
    | distribute => cases h
    | limitOrder o =>
      obtain ⟨current,hc,rfl⟩ := Option.map_eq_some_iff.mp (show o.named=some slot from h)
      exact ⟨o,i,next,current,rfl,hc,rfl⟩

theorem cancel_open (h : node.named=some slot) (ho : Exists deps env slot) :
    node.cancel deps env=.ok ([slot.closing],node) := by
  obtain ⟨o,i,next,current,rfl,hc,rfl⟩ := named_eq_some h
  obtain ⟨order,ho⟩ := ho
  rw [cancel,Action.cancel,FinLimitOrder.cancel,hc]
  simp only [StaleOrder.refresh,ho,query_ok,Except.ok_bind]
  rfl

theorem refresh_gone {o : FinLimitOrder} {current : StaleOrder}
    (h : ¬Exists deps env ⟨o.pairAddress,o.side,current.price⟩) : ∃ e, current.refresh deps env o=.error (.err e) := by
  cases hq : deps.finOrder o.pairAddress env.contract o.side current.price with
  | ok order => exact absurd ⟨order,hq⟩ h
  | error e => exact ⟨e,by rw [StaleOrder.refresh,hq]; rfl⟩

theorem cancel_gone (h : node.named=some slot) (ho : ¬Exists deps env slot) :
    ∃ e, node.cancel deps env=.error (.err e) := by
  obtain ⟨o,i,next,current,rfl,hc,rfl⟩ := named_eq_some h
  obtain ⟨e,he⟩ := refresh_gone ho
  rw [cancel,Action.cancel,FinLimitOrder.cancel,hc]
  simp only [he]
  exact ⟨e,rfl⟩

/-- A commit forgets an order that is gone. -/
theorem commit_gone (h : node.named=some slot) (ho : ¬Exists deps env slot) :
    ∃ node', node.commit deps env=.ok node' ∧ node'.named=none := by
  obtain ⟨o,i,next,current,rfl,hc,rfl⟩ := named_eq_some h
  obtain ⟨e,he⟩ := refresh_gone ho
  refine ⟨.action (.limitOrder { o with currentOrder := none }) i next,?_,rfl⟩
  rw [commit,Action.commit,FinLimitOrder.commit,hc]
  simp only [he,Fault.attempt_err]
  rfl

end Node

/-! ### One call -/

namespace StrategyContract

theorem Progress.status_of_next {progress : Progress} {p : ℕ} (h : progress.next=some p) :
    progress.status=.pending (some p) := by
  cases progress with
  | messages i ms q => exact congrArg Status.pending h
  | failed i e => exact congrArg Status.pending h
  | finished path => cases h

section

variable [Crates] {deps : Deps} {env : Env} {orders : Orders}

/-- How a cancelling loop over these nodes ends: past all of them, if they name no order, else at the first that does,
with a closing message if its order is open. -/
inductive Sweeps (orders : Slot → Option OrderResponse) (xs : List Node) (r : Processed) : Prop
  | past {path : List String} : (∀ n ∈ xs, n.named=none) → r.executed=xs → r.progress=.finished path → Sweeps orders xs r
  | stops {before after : List Node} {n : Node} {slot : Slot} : xs=before ++ n :: after → (∀ m ∈ before, m.named=none) →
      n.named=some slot → r.executed=before ++ [n] → r.path.isSome → r.progress.next=some n.index →
      r.progress.emitted=(if (orders slot).isSome then [slot.closing] else []) → Sweeps orders xs r

omit [Crates] in
theorem Sweeps.cons {os : Slot → Option OrderResponse} {xs : List Node} {r : Processed} (h : Sweeps os xs r) {n : Node}
    (hn : n.named=none) (left : List Visit) : Sweeps os (n :: xs) { r with executed := n :: r.executed,left := left } := by
  cases h with
  | past hnone hex hp => exact .past (List.forall_mem_cons.mpr ⟨hn,hnone⟩) (by rw [hex]) hp
  | stops hxs hnone hm hex hpath hnext hem =>
    exact .stops (by rw [hxs,List.cons_append]) (List.forall_mem_cons.mpr ⟨hn,hnone⟩) hm (by rw [hex,List.cons_append]) hpath
      hnext hem

/-- With enough gas the loop returns, and it changes no node. -/
theorem cancelLoop_sweeps (lo : ℕ) {gas : ℕ} {nodes : Table ℕ Node} {stored : Option (List String)} {path : List String}
    {xs : List Node} (hx : ∀ j, nodes.get? (lo+j)=xs[j]?) (hidx : ∀ j n, xs[j]?=some n → n.index=lo+j)
    (hlen : lo+xs.length<2^16) (hgas : xs.length<gas) (hsees : orders.Answers env.contract deps) :
    ∃ r, processLoop deps env .cancel gas nodes stored path xs.head?=.ok r ∧ r.nodes=nodes ∧
      Sweeps (orders env.contract) xs r := by
  induction xs generalizing lo gas path with
  | nil =>
    obtain ⟨gas,rfl⟩ := Nat.exists_eq_succ_of_ne_zero (by omega : gas≠0)
    exact ⟨_,rfl,rfl,.past (by simp) rfl rfl⟩
  | cons n xs ih =>
    obtain ⟨gas,rfl⟩ := Nat.exists_eq_succ_of_ne_zero (by omega : gas≠0)
    have hn : n.index=lo := hidx 0 n rfl
    have hsave : NodeStore.save nodes n=nodes := NodeStore.save_stored (hn.symm ▸ hx 0)
    rw [List.head?_cons,processLoop]
    cases hnamed : n.named with
    | none =>
      have hrun : run .cancel n deps env=.ok ([],n) := Node.cancel_unnamed hnamed
      have hx' : ∀ j, nodes.get? (lo+1+j)=xs[j]? := fun j => by
        rw [Nat.add_assoc,Nat.add_comm 1 j,hx (j+1)]
        rfl
      have hnext : Fault.okay (NodeStore.getNext deps env nodes .cancel n)=.ok xs.head? := by
        have hfit : fits 16 (n.index+1)=.ok (lo+1) := by
          rw [hn,fits_of_lt (by rw [List.length_cons] at hlen; omega)]
        rw [NodeStore.getNext,if_pos (by decide),hfit,Except.ok_bind,okay_load,List.head?_eq_getElem?,← hx' 0,Nat.add_zero]
      obtain ⟨r,hr,hnodes,hs⟩ := @ih (lo+1) gas (path ++ [toString n.index]) hx'
        (fun j m hm => by rw [hidx (j+1) m hm]; omega) (by rw [List.length_cons] at hlen; omega)
        (by rw [List.length_cons] at hgas; omega)
      refine ⟨{ r with executed := n :: r.executed,left := ⟨n,deps,env⟩ :: r.left },?_,hnodes,hs.cons hnamed _⟩
      simp only [hrun,Fault.attempt_ok,Except.ok_bind,ne_eq,not_true_eq_false,if_false,hsave,hnext,hr]
      rfl
    | some slot =>
      cases ho : orders env.contract slot with
      | some order =>
        have hrun : run .cancel n deps env=.ok ([slot.closing],n) :=
          Node.cancel_open hnamed ((hsees.exists_iff slot).mpr (by rw [ho]; rfl))
        refine ⟨⟨nodes,some (path ++ [toString n.index]),.messages n.index [slot.closing] n.index,[n],[]⟩,?_,rfl,
          @Sweeps.stops _ _ _ [] xs n slot rfl (by simp) hnamed rfl rfl rfl (by rw [ho]; rfl)⟩
        simp only [hrun,Fault.attempt_ok,Except.ok_bind,ne_eq,List.cons_ne_self,not_false_eq_true,if_true,hsave]
        rfl
      | none =>
        obtain ⟨e,hrun⟩ : ∃ e, run .cancel n deps env=.error (.err e) :=
          Node.cancel_gone hnamed fun h => by
            have := (hsees.exists_iff slot).mp h
            rw [ho] at this
            cases this
        refine ⟨⟨nodes,some (path ++ [toString n.index]),.failed n.index e,[n],[]⟩,?_,rfl,
          @Sweeps.stops _ _ _ [] xs n slot rfl (by simp) hnamed rfl rfl rfl (by rw [ho]; rfl)⟩
        simp only [hrun,Fault.attempt_err,Except.ok_bind,hsave]
        rfl

/-- The number of nodes that a run over `count` nodes has cancelled. -/
def Status.cancelled (count : ℕ) : Status → ℕ
  | .pending none => 0
  | .pending (some p) => p+1
  | .finished => count

/-- The number of nodes that it has committed, too. -/
def Status.committed (count : ℕ) : Status → ℕ
  | .pending none => 0
  | .pending (some p) => p
  | .finished => count

/-- A cancelling run over the stored nodes `xs`: what is committed names no order, what is cancelled none that is
open, and the rest is as it was. -/
structure Swept (xs : List Node) (orders : Slot → Option OrderResponse) (s : StrategyStorage) (status : Status) :
    Prop where
  paused : ∀ p, status=.pending (some p) → s.path.isSome ∧ ∃ n slot, xs[p]?=some n ∧ n.named=some slot
  ahead : ∀ k, status.committed xs.length ≤ k → s.nodes.get? k=xs[k]?
  cleared : ∀ k < status.committed xs.length, ∃ n, s.nodes.get? k=some n ∧ n.named=none ∧ n.index=k
  closed : ∀ k < status.cancelled xs.length, ∀ n slot, xs[k]?=some n → n.named=some slot → orders slot=none

/-- The store after the cancelled nodes are committed. -/
structure Committed (xs : List Node) (lo : ℕ) (nodes : Table ℕ Node) : Prop where
  ahead : ∀ k, lo ≤ k → nodes.get? k=xs[k]?
  cleared : ∀ k<lo, ∃ n, nodes.get? k=some n ∧ n.named=none ∧ n.index=k

variable {xs : List Node}

theorem sweep_rest {gas lo : ℕ} {nodes : Table ℕ Node} {stored : Option (List String)} {path : List String}
    (hidx : ∀ (k : ℕ) (n : Node), xs[k]?=some n → n.index=k) (hlen : xs.length<2^16) (hlo : lo ≤ xs.length) (hgas : xs.length<gas)
    (hsees : orders.Answers env.contract deps) (hnodes : ∀ k, lo ≤ k → nodes.get? k=xs[k]?) :
    ∃ r, processLoop deps env .cancel gas nodes stored path (nodes.get? lo)=.ok r ∧ r.nodes=nodes ∧
      Sweeps (orders env.contract) (xs.drop lo) r := by
  have hhead : nodes.get? lo=(xs.drop lo).head? := by rw [hnodes lo le_rfl,List.head?_drop]
  rw [hhead]
  refine cancelLoop_sweeps lo (fun j => ?_) (fun j n hn => ?_) ?_ ?_ hsees
  · rw [hnodes _ (Nat.le_add_right _ _),List.getElem?_drop]
  · rw [List.getElem?_drop] at hn
    exact hidx _ n hn
  · rw [List.length_drop]
    omega
  · rw [List.length_drop]
    omega

/-- With enough gas a call of the run returns: it commits the node before and sweeps over the rest. -/
theorem Swept.process (gas : ℕ) {s : StrategyStorage} {previous : Option ℕ} (hidx : ∀ (k : ℕ) (n : Node), xs[k]?=some n → n.index=k)
    (hlen : xs.length<2^16) (hgas : xs.length<gas) (hsees : orders.Answers env.contract deps)
    (h : Swept xs (orders env.contract) s (.pending previous)) :
    ∃ r, process gas deps env s .cancel previous=.ok r ∧
      Committed xs (Status.cancelled xs.length (.pending previous)) r.nodes ∧
      Sweeps (orders env.contract) (xs.drop (Status.cancelled xs.length (.pending previous))) r := by
  cases previous with
  | none =>
    obtain ⟨r,hr,hnodes,hs⟩ := @sweep_rest _ deps env orders xs gas 0 s.nodes s.path [] hidx hlen (Nat.zero_le _) hgas hsees
      h.ahead
    refine ⟨r,?_,⟨fun k _ => hnodes ▸ h.ahead k (Nat.zero_le k),fun k hk => absurd hk (Nat.not_lt_zero k)⟩,hs⟩
    rw [StrategyContract.process,okay_load,Except.ok_bind,hr]
  | some p =>
    obtain ⟨hpath,n,slot,hn,hslot⟩ := h.paused p rfl
    obtain ⟨path,hpath⟩ := Option.isSome_iff_exists.mp hpath
    have hp : p<xs.length := (List.getElem?_eq_some_iff.mp hn).1
    have hget : s.nodes.get? p=some n := (h.ahead p le_rfl).trans hn
    have hload : NodeStore.load s.nodes p=.ok n := NodeStore.load_eq_ok.mpr hget
    have hnext : Fault.okay (NodeStore.getNext deps env s.nodes .cancel n)=.ok (s.nodes.get? (p+1)) := by
      rw [NodeStore.getNext,if_pos (by decide),hidx p n hn,fits_of_lt (by omega),Except.ok_bind,okay_load]
    have hgone : ¬Node.Exists deps env slot := fun hex => by
      have := (hsees.exists_iff slot).mp hex
      rw [h.closed p (Nat.lt_succ_self p) n slot hn hslot] at this
      cases this
    obtain ⟨updated,hc,hunnamed⟩ := Node.commit_gone hslot hgone
    have hidx' : updated.index=p := by
      rw [Node.index_congr (Node.commit_wiring hc),hidx p n hn]
    have hcom : Committed xs (p+1) (NodeStore.save s.nodes updated) := by
      constructor
      · intro k hk
        rw [NodeStore.get?_save,if_neg (by omega),h.ahead k (show p ≤ k by omega)]
      · intro k hk
        by_cases he : k=p
        · exact ⟨updated,by rw [NodeStore.get?_save,if_pos (by omega)],hunnamed,hidx'.trans he.symm⟩
        · rw [NodeStore.get?_save,if_neg (by omega)]
          exact h.cleared k (show k<p by omega)
    obtain ⟨r,hr,hnodes,hs⟩ := @sweep_rest _ deps env orders xs gas (p+1) _ s.path path hidx hlen hp hgas hsees hcom.ahead
    refine ⟨{ r with left := ⟨n,deps,env⟩ :: r.left },?_,?_,?_⟩
    · rw [NodeStore.get?_save,if_neg (by omega)] at hr
      rw [StrategyContract.process,hload,Except.ok_bind,hnext,Except.ok_bind,hc,Except.ok_bind,hpath]
      rw [hpath] at hr
      simp only [hr]
      rfl
    · exact hnodes.symm ▸ hcom
    · cases hs with
      | past hnone hex hprog => exact .past hnone hex hprog
      | stops hxs hnone hm hex hpath' hnext' hem => exact .stops hxs hnone hm hex hpath' hnext' hem

/-- The only message of a call, if there is one, closes an open order; when it succeeds the order is closed, and no
order is opened. -/
theorem closing_delivered {owner : Addr} {outcomes : ℕ → Except String Unit} {o o' : Orders} {slot : Slot}
    (hd : Orders.Delivered owner outcomes 0 (if (o owner slot).isSome then [slot.closing] else []) o o')
    (hok : (o owner slot).isSome → (outcomes 0).isOk=true) :
    o' owner slot=none ∧ ∀ x, o owner x=none → o' owner x=none := by
  by_cases hopen : (o owner slot).isSome
  · rw [if_pos hopen] at hd
    cases hd with
    | fails hfail _ => simp [hok hopen] at hfail
    | arrives _ hcarried hrest =>
      cases hrest
      have hcloses : ∀ x, (o' owner x).isSome → (o owner x).isSome ∧ x≠slot := fun x hx => hcarried.closes rfl hx
      refine ⟨Option.not_isSome_iff_eq_none.mp fun h => (hcloses slot h).2 rfl,fun x hx => ?_⟩
      refine Option.not_isSome_iff_eq_none.mp fun h => ?_
      have := (hcloses x h).1
      rw [hx] at this
      cases this
  · rw [if_neg hopen] at hd
    cases hd
    exact ⟨Option.not_isSome_iff_eq_none.mp hopen,fun x hx => hx⟩

omit [Crates] in
/-- Nodes that name no order need no commit. -/
theorem Committed.pass {lo hi : ℕ} {nodes : Table ℕ Node} (h : Committed xs lo nodes)
    (hidx : ∀ (k : ℕ) (n : Node), xs[k]?=some n → n.index=k) (hlo : lo ≤ hi) (hhi : hi ≤ xs.length)
    (hnone : ∀ k, lo ≤ k → k<hi → ∀ n, xs[k]?=some n → n.named=none) : Committed xs hi nodes := by
  refine ⟨fun k hk => h.ahead k (hlo.trans hk),fun k hk => ?_⟩
  by_cases hlt : k<lo
  · exact h.cleared k hlt
  · have hn : xs[k]?=some xs[k] := List.getElem?_eq_getElem (by omega)
    exact ⟨xs[k],(h.ahead k (by omega)).trans hn,hnone k (by omega) hk _ hn,hidx k _ hn⟩

/-- What a call and the delivery of its message make of the run. -/
theorem Sweeps.swept {owner : Addr} {outcomes : ℕ → Except String Unit} {o o' : Orders} {lo : ℕ} {s : StrategyStorage}
    {r : Processed} (hidx : ∀ (k : ℕ) (n : Node), xs[k]?=some n → n.index=k) (hlo : lo ≤ xs.length)
    (hc : Committed xs lo r.nodes) (hs : Sweeps (o owner) (xs.drop lo) r)
    (hclosed : ∀ k<lo, ∀ n slot, xs[k]?=some n → n.named=some slot → o owner slot=none)
    (hd : Orders.Delivered owner outcomes 0 r.progress.emitted o o')
    (hok : ∀ slot, r.progress.emitted.head?=some slot.closing → (o owner slot).isSome → (outcomes 0).isOk=true) :
    Swept xs (o' owner) { s with nodes := r.nodes,path := r.path } r.progress.status ∧
      xs.take lo ++ r.executed=xs.take (r.progress.status.cancelled xs.length) ∧
      lo ≤ r.progress.status.committed xs.length := by
  cases hs with
  | past hnone hex hprog =>
    have hafter : ∀ k, lo ≤ k → ∀ n, xs[k]?=some n → n.named=none := fun k hk n hn => by
      refine hnone n (List.mem_of_getElem? (i := k-lo) ?_)
      rw [List.getElem?_drop,show lo+(k-lo)=k by omega,hn]
    rw [hprog] at hd ⊢
    cases hd
    have hdone := hc.pass hidx hlo le_rfl fun k hk _ => hafter k hk
    refine ⟨⟨fun p hp => (by cases hp),hdone.ahead,hdone.cleared,fun k hk n slot hn hslot => ?_⟩,?_,hlo⟩
    · by_cases hlt : k<lo
      · exact hclosed k hlt n slot hn hslot
      · rw [hafter k (by omega) n hn] at hslot
        cases hslot
    · rw [hex,List.take_append_drop]
      exact (List.take_length (l := xs)).symm
  | @stops before after n slot hxs hnone hslot hex hpath hnext hem =>
    have hget : ∀ j, xs[lo+j]?=(before ++ n :: after)[j]? := fun j => by rw [← hxs,List.getElem?_drop]
    have hn : xs[lo+before.length]?=some n := by
      rw [hget,List.getElem?_append_right le_rfl,Nat.sub_self]
      rfl
    have hp : n.index=lo+before.length := hidx _ n hn
    have hbefore : ∀ k, lo ≤ k → k<lo+before.length → ∀ m, xs[k]?=some m → m.named=none := fun k hk hlt m hm => by
      refine hnone m (List.mem_of_getElem? (i := k-lo) ?_)
      have hmem : (before ++ n :: after)[k-lo]?=some m := by rw [← hget,show lo+(k-lo)=k by omega,hm]
      rwa [List.getElem?_append_left (by omega)] at hmem
    have hlen : lo+before.length<xs.length := (List.getElem?_eq_some_iff.mp hn).1
    rw [hem] at hd
    obtain ⟨hgone,hmono⟩ := closing_delivered hd fun hopen => hok slot (by rw [hem,if_pos hopen]; rfl) hopen
    rw [Progress.status_of_next hnext,hp]
    have hdone := hc.pass hidx (Nat.le_add_right lo _) hlen.le hbefore
    refine ⟨⟨fun p hp => ?_,hdone.ahead,hdone.cleared,fun k hk m x hm hx => ?_⟩,?_,Nat.le_add_right lo _⟩
    · obtain rfl : lo+before.length=p := Option.some.inj (Status.pending.inj hp)
      exact ⟨hpath,n,slot,hn,hslot⟩
    · have hk' : k<lo+before.length+1 := hk
      by_cases hlt : k<lo
      · exact hmono x (hclosed k hlt m x hm hx)
      · by_cases he : k=lo+before.length
        · rw [he,hn] at hm
          obtain rfl := Option.some.inj hm
          rw [← Option.some.inj (hslot.symm.trans hx)]
          exact hgone
        · rw [hbefore k (by omega) (by omega) m hm] at hx
          cases hx
    · rw [hex,show Status.cancelled xs.length (.pending (some (lo+before.length)))=lo+(before.length+1) from rfl,
        List.take_add,hxs,List.take_length_add_append]
      rfl

/-! ### The run -/

/-- A cancelling run from `s₀` on among the orders of its contract: its calls, the state in between and the orders
then. Between the calls orders may be filled; a message that closes an open order succeeds. -/
inductive Cancelling (owner : Addr) (s₀ : StrategyStorage) (o₀ : Orders) : List Processed → Chain → Orders → Prop
  | start : Cancelling owner s₀ o₀ [] (Chain.start s₀) o₀
  | fills {calls : List Processed} {c : Chain} {o o' : Orders} : Cancelling owner s₀ o₀ calls c o → o.Fills owner o' →
      Cancelling owner s₀ o₀ calls c o'
  | call {calls : List Processed} {c c' : Chain} {o o' : Orders} {previous : Option ℕ} {t : Turn} {r : Processed} :
      Cancelling owner s₀ o₀ calls c o → c.status=.pending previous → t.env.contract=owner → o.Answers owner t.deps →
      process t.gas t.deps t.env c.storage .cancel previous=.ok r → Chain.step .cancel c t=.ok c' →
      Orders.Delivered owner t.outcomes 0 r.progress.emitted o o' →
      (∀ slot, r.progress.emitted.head?=some slot.closing → (o owner slot).isSome → (t.outcomes 0).isOk=true) →
      Cancelling owner s₀ o₀ (calls ++ [r]) c' o'

omit [Crates] in
theorem Swept.fills {owner : Addr} {o o' : Orders} {s : StrategyStorage} {status : Status}
    (h : Swept xs (o owner) s status) (hf : o.Fills owner o') : Swept xs (o' owner) s status :=
  ⟨h.paused,h.ahead,h.cleared,fun k hk n slot hn hslot => Option.not_isSome_iff_eq_none.mp fun hx => by
    have := hf slot hx
    rw [h.closed k hk n slot hn hslot] at this
    cases this⟩

/-- The call of a step, and what it makes of the chain. -/
theorem Chain.step_process {c : Chain} {t : Turn} {operation : StrategyOperation} {previous : Option ℕ} {r : Processed}
    (hp : c.status=.pending previous) (hr : process t.gas t.deps t.env c.storage operation previous=.ok r) :
    ∃ c', Chain.step operation c t=.ok c' ∧ c'.storage={ c.storage with nodes := r.nodes,path := r.path } ∧
      c'.status=r.progress.status ∧ c'.executed=c.executed ++ r.executed := by
  obtain ⟨replies,hrep⟩ := mapM_reply (Chain.reported (processResponse t.env operation r.progress)) t.outcomes
  rw [Chain.step,hp]
  simp only [hr,Except.ok_bind,hrep]
  refine ⟨_,rfl,rfl,?_,rfl⟩
  cases r.progress <;> rfl

/-- More gas does not change what a loop returns. -/
theorem processLoop_gas {operation : StrategyOperation} {gas gas' : ℕ} {nodes : Table ℕ Node}
    {stored : Option (List String)} {path : List String} {next : Option Node} {r : Processed} (hle : gas ≤ gas')
    (h : processLoop deps env operation gas nodes stored path next=.ok r) :
    processLoop deps env operation gas' nodes stored path next=.ok r := by
  induction gas generalizing gas' nodes path next r with
  | zero => cases h
  | succ gas ih =>
    obtain ⟨gas',rfl⟩ := Nat.exists_eq_succ_of_ne_zero (by omega : gas'≠0)
    cases next with
    | none => exact h
    | some node =>
      simp only [processLoop] at h ⊢
      obtain ⟨result,hres,h⟩ := Except.bind_eq_ok.mp h
      rw [hres,Except.ok_bind]
      cases result with
      | error e => exact h
      | ok result =>
        simp only at h ⊢
        split_ifs at h ⊢ with hm
        · exact h
        · obtain ⟨nextNode,hget,h⟩ := Except.bind_eq_ok.mp h
          obtain ⟨rest,hrest,h⟩ := Except.bind_eq_ok.mp h
          rw [hget,Except.ok_bind,ih (by omega) hrest]
          exact h

theorem process_gas {operation : StrategyOperation} {gas gas' : ℕ} {s : StrategyStorage} {previous : Option ℕ}
    {r : Processed} (hle : gas ≤ gas') (h : process gas deps env s operation previous=.ok r) :
    process gas' deps env s operation previous=.ok r := by
  cases previous with
  | none =>
    obtain ⟨next,hnext,h⟩ := Except.bind_eq_ok.mp h
    rw [process,hnext,Except.ok_bind,processLoop_gas hle h]
  | some p =>
    obtain ⟨node,hload,h⟩ := Except.bind_eq_ok.mp h
    obtain ⟨next,hnext,h⟩ := Except.bind_eq_ok.mp h
    obtain ⟨updated,hc,h⟩ := Except.bind_eq_ok.mp h
    rw [process,hload,Except.ok_bind,hnext,Except.ok_bind,hc,Except.ok_bind]
    cases hpath : s.path with
    | none => simp [hpath] at h
    | some path =>
      simp only [hpath] at h ⊢
      obtain ⟨rest,hrest,h⟩ := Except.bind_eq_ok.mp h
      rw [processLoop_gas hle hrest]
      exact h

omit [Crates] in
theorem Swept.bound {os : Slot → Option OrderResponse} {s : StrategyStorage} {status : Status}
    (h : Swept xs os s status) : status.cancelled xs.length ≤ xs.length := by
  match status with
  | .pending none => exact Nat.zero_le _
  | .pending (some p) =>
    obtain ⟨_,_,_,hn,_⟩ := h.paused p rfl
    exact (List.getElem?_eq_some_iff.mp hn).1
  | .finished => exact le_rfl

/-- The calls of a run have cancelled the first nodes, each once and in order, and go on from the next one. -/
structure Cancelling.Inv (xs : List Node) (owner : Addr) (calls : List Processed) (c : Chain) (o : Orders) : Prop where
  swept : Swept xs (o owner) c.storage c.status
  executed : c.executed=xs.take (c.status.cancelled xs.length)
  count : calls.length ≤ c.status.committed xs.length+1
  first : c.status=.pending none → calls=[]

theorem Cancelling.inv {owner : Addr} {s₀ : StrategyStorage} {o₀ o : Orders} {calls : List Processed} {c : Chain}
    (hidx : ∀ (k : ℕ) (n : Node), xs[k]?=some n → n.index=k) (hlen : xs.length<2^16)
    (hs : ∀ k, s₀.nodes.get? k=xs[k]?) (h : Cancelling owner s₀ o₀ calls c o) : Cancelling.Inv xs owner calls c o := by
  induction h with
  | start =>
    exact ⟨⟨fun p hp => (by cases hp),fun k _ => hs k,fun k hk => absurd hk (Nat.not_lt_zero k),
      fun k hk => absurd hk (Nat.not_lt_zero k)⟩,rfl,Nat.zero_le _,fun _ => rfl⟩
  | fills _ hf ih => exact ⟨ih.swept.fills hf,ih.executed,ih.count,ih.first⟩
  | @call calls c c' o o' previous t r _ hp henv hsees hr hstep hd hok ih =>
    subst henv
    have hswept := hp ▸ ih.swept
    obtain ⟨r',hr',hcom,hsweeps⟩ := hswept.process (t.gas+xs.length+1) hidx hlen (by omega) hsees
    obtain rfl : r'=r := Except.ok.inj (hr'.symm.trans (process_gas (by omega) hr))
    obtain ⟨c'',hstep',hstorage,hstatus,hexecuted⟩ := Chain.step_process hp hr
    obtain rfl : c''=c' := Except.ok.inj (hstep'.symm.trans hstep)
    obtain ⟨hnext,htake,hge⟩ := hsweeps.swept (s := c.storage) hidx hswept.bound hcom hswept.closed hd hok
    refine ⟨hstatus ▸ hstorage ▸ hnext,?_,?_,fun hfirst => ?_⟩
    · rw [hexecuted,ih.executed,hp,hstatus]
      exact htake
    · rw [List.length_append,List.length_singleton,hstatus]
      refine Nat.succ_le_succ ?_
      cases previous with
      | none => rw [ih.first hp]; exact Nat.zero_le _
      | some p =>
        have hcount := ih.count
        rw [hp] at hcount
        exact hcount.trans hge
    · rw [hstatus] at hfirst
      cases hprog : r'.progress <;> rw [hprog] at hfirst <;> cases hfirst

/-- A run whose nodes name no order sends nothing. -/
theorem Cancelling.silent {owner : Addr} {s₀ : StrategyStorage} {o₀ o : Orders} {calls : List Processed} {c : Chain}
    (hidx : ∀ (k : ℕ) (n : Node), xs[k]?=some n → n.index=k) (hlen : xs.length<2^16)
    (hs : ∀ k, s₀.nodes.get? k=xs[k]?) (hnone : ∀ n ∈ xs, n.named=none) (h : Cancelling owner s₀ o₀ calls c o) :
    ∀ r ∈ calls, r.progress.emitted=[] := by
  induction h with
  | start => exact fun r hr => (by cases hr)
  | fills _ _ ih => exact ih
  | @call calls c c' o o' previous t r hprev hp henv hsees hr hstep hd hok ih =>
    subst henv
    have hswept := hp ▸ (hprev.inv hidx hlen hs).swept
    obtain ⟨r',hr',hcom,hsweeps⟩ := hswept.process (t.gas+xs.length+1) hidx hlen (by omega) hsees
    obtain rfl : r'=r := Except.ok.inj (hr'.symm.trans (process_gas (by omega) hr))
    intro r hr
    rcases List.mem_append.mp hr with hr | hr
    · exact ih r hr
    · obtain rfl := List.mem_singleton.mp hr
      cases hsweeps with
      | past _ _ hprog => rw [hprog]; rfl
      | stops hxs _ hslot =>
        have hmem := List.mem_of_mem_drop (hxs ▸ List.mem_append_right _ List.mem_cons_self)
        rw [hnone _ hmem] at hslot
        cases hslot

/-- The stored nodes of a strategy fill the keys from 0 on, each under its index. -/
theorem History.stored {s : StrategyStorage} {lists : List (List Node)} (h : History s lists) :
    (∀ k, s.nodes.get? k=(NodeStore.all s.nodes)[k]?) ∧ (NodeStore.all s.nodes).length<2^16 ∧
      ∀ (k : ℕ) (n : Node), (NodeStore.all s.nodes)[k]?=some n → n.index=k := by
  obtain ⟨count,hcount,hshort⟩ : ∃ count, (∀ k, k<count ↔ ∃ l ∈ lists, k<l.length) ∧ count ≤ MAX_STRATEGY_SIZE := by
    have hle := h.short
    clear h
    induction lists with
    | nil => exact ⟨0,by simp,Nat.zero_le _⟩
    | cons l lists ih =>
      obtain ⟨hl,hrest⟩ := List.forall_mem_cons.mp hle
      obtain ⟨count,hcount,hshort⟩ := ih hrest
      refine ⟨max l.length count,fun k => ?_,max_le hl hshort⟩
      rw [lt_max_iff,hcount k,List.exists_mem_cons_iff]
  obtain ⟨hsane,hkeys⟩ := h.keys
  obtain ⟨hlen,hget⟩ := Table.values_of_keys fun k => (hkeys k).trans (hcount k).symm
  exact ⟨hget,hlen.trans_lt (hshort.trans_lt (by decide)),fun k n hn => hsane.index k n ((hget k).trans hn)⟩

/-- What a cancelling run over the stored nodes comes to: every call returns, there are no more calls than nodes and
one, and once it is finished every node has been cancelled once and in order, no order that was named is open, no node
names an order, and a run that is started later sends nothing. -/
structure CancelsAll (owner : Addr) (s : StrategyStorage) (o : Orders) : Prop where
  returns : ∀ calls c o' previous, Cancelling owner s o calls c o' → c.status=.pending previous → ∀ t : Turn,
    t.env.contract=owner → o'.Answers owner t.deps → (NodeStore.all s.nodes).length<t.gas →
      ∃ c', Chain.step .cancel c t=.ok c'
  ends : ∀ calls c o', Cancelling owner s o calls c o' → (NodeStore.all s.nodes).length<calls.length → c.status=.finished
  cancelled : ∀ calls c o', Cancelling owner s o calls c o' → c.status=.finished → c.executed=NodeStore.all s.nodes
  closed : ∀ calls c o', Cancelling owner s o calls c o' → c.status=.finished →
    ∀ node ∈ NodeStore.all s.nodes, ∀ slot, node.named=some slot → o' owner slot=none
  cleared : ∀ calls c o', Cancelling owner s o calls c o' → c.status=.finished →
    ∀ node ∈ NodeStore.all c.storage.nodes, node.named=none
  silent : ∀ calls c o', Cancelling owner s o calls c o' → c.status=.finished → ∀ o₁ calls' c' o₂,
    Cancelling owner c.storage o₁ calls' c' o₂ → ∀ r ∈ calls', r.progress.emitted=[]

omit [Crates] in
/-- A finished run has stored nodes under the same keys, and they name nothing. -/
theorem Swept.finished {os : Slot → Option OrderResponse} {s : StrategyStorage} (h : Swept xs os s .finished) :
    (∀ k, s.nodes.get? k=(NodeStore.all s.nodes)[k]?) ∧ (NodeStore.all s.nodes).length=xs.length ∧
      ∀ (k : ℕ) (n : Node), (NodeStore.all s.nodes)[k]?=some n → n.named=none ∧ n.index=k := by
  have hkeys : ∀ k, (s.nodes.get? k).isSome ↔ k<xs.length := fun k => by
    by_cases hk : k<xs.length
    · obtain ⟨n,hn,_⟩ := h.cleared k hk
      rw [hn]
      exact iff_of_true rfl hk
    · rw [h.ahead k (Nat.le_of_not_lt hk),List.getElem?_eq_none (Nat.le_of_not_lt hk)]
      exact iff_of_false (by decide) hk
  obtain ⟨hlen,hget⟩ := Table.values_of_keys hkeys
  refine ⟨hget,hlen,fun k n hn => ?_⟩
  have hk : s.nodes.get? k=some n := (hget k).trans hn
  obtain ⟨m,hm,hnamed,hidx⟩ := h.cleared k ((hkeys k).mp (by rw [hk]; rfl))
  obtain rfl := Option.some.inj (hk.symm.trans hm)
  exact ⟨hnamed,hidx⟩

/-- In every reachable state a cancelling run cancels every stored node and leaves nothing to cancel. -/
theorem History.cancels_all {owner : Addr} {s : StrategyStorage} {lists : List (List Node)} (h : History s lists)
    (o : Orders) : CancelsAll owner s o := by
  obtain ⟨hget,hlen,hidx⟩ := h.stored
  have hinv : ∀ {calls c o'}, Cancelling owner s o calls c o' → Cancelling.Inv (NodeStore.all s.nodes) owner calls c o' :=
    fun hc => hc.inv hidx hlen hget
  constructor
  · intro calls c o' previous hc hp t henv hsees hgas
    subst henv
    obtain ⟨r,hr,_⟩ := (hp ▸ (hinv hc).swept).process t.gas hidx hlen hgas hsees
    obtain ⟨c',hstep,_⟩ := Chain.step_process hp hr
    exact ⟨c',hstep⟩
  · intro calls c o' hc hmany
    have hcount := (hinv hc).count
    have hbound := (hinv hc).swept.bound
    match hstatus : c.status with
    | .pending none =>
      rw [(hinv hc).first hstatus] at hmany
      exact absurd hmany (Nat.not_lt_zero _)
    | .pending (some p) =>
      rw [hstatus] at hcount hbound
      simp only [Status.committed,Status.cancelled] at hcount hbound
      omega
    | .finished => rfl
  · intro calls c o' hc hfin
    rw [(hinv hc).executed,hfin]
    exact List.take_length
  · intro calls c o' hc hfin node hn slot hslot
    obtain ⟨k,hk⟩ := List.mem_iff_getElem?.mp hn
    exact (hfin ▸ (hinv hc).swept).closed k (List.getElem?_eq_some_iff.mp hk).1 node slot hk hslot
  · intro calls c o' hc hfin node hn
    obtain ⟨k,hk⟩ := List.mem_iff_getElem?.mp hn
    exact ((hfin ▸ (hinv hc).swept).finished.2.2 k node hk).1
  · intro calls c o' hc hfin o₁ calls' c' o₂ hc'
    obtain ⟨hget',hlen',hnodes⟩ := (hfin ▸ (hinv hc).swept).finished
    refine hc'.silent (fun k n hn => (hnodes k n hn).2) (hlen' ▸ hlen) hget' fun n hn => ?_
    obtain ⟨k,hk⟩ := List.mem_iff_getElem?.mp hn
    exact (hnodes k n hk).1

/-- A call whose result is known apart from the views of its history. -/
theorem Cancelling.next {owner : Addr} {s₀ : StrategyStorage} {o₀ o o' : Orders} {calls : List Processed} {c : Chain}
    {previous : Option ℕ} (h : Cancelling owner s₀ o₀ calls c o) (hp : c.status=.pending previous) (t : Turn)
    (nodes : Table ℕ Node) (path : Option (List String)) (progress : Progress) (henv : t.env.contract=owner)
    (hsees : o.Answers owner t.deps)
    (hproc : (fun r : Processed => (r.nodes,r.path,r.progress)) <$>
      process t.gas t.deps t.env c.storage .cancel previous=.ok (nodes,path,progress))
    (hd : Orders.Delivered owner t.outcomes 0 progress.emitted o o') (hok : (t.outcomes 0).isOk=true) :
    ∃ r c', Cancelling owner s₀ o₀ (calls ++ [r]) c' o' ∧ c'.storage={ c.storage with nodes := nodes,path := path } ∧
      c'.status=progress.status := by
  obtain ⟨r,hr,he⟩ := Except.map_eq_ok.mp hproc
  cases he
  obtain ⟨c',hstep,hstorage,hstatus,_⟩ := Chain.step_process hp hr
  exact ⟨r,c',.call h hp henv hsees hr hstep hd fun _ _ _ => hok,hstorage,hstatus⟩

end

section

attribute [local instance] Crates.plain

theorem closeBid_carried : Orders.Carried "strategy" (closeBid 100) (withBid noOrders 100) noOrders :=
  ⟨_,.close .done,fun slot h => by cases h⟩

/-- Two nodes that name one order: the first closes it, the second errs, and the run cancels both. -/
theorem cancels_all_twins : CancelsAll "strategy" (twinning (some Decimal.one) (some Decimal.one) ["0","1"])
      (withBid noOrders 100) ∧
    ∃ calls c, Cancelling "strategy" (twinning (some Decimal.one) (some Decimal.one) ["0","1"]) (withBid noOrders 100)
      calls c noOrders ∧ c.status=.finished ∧ c.storage=twinning none none ["0","1"] := by
  obtain ⟨lists,hh⟩ := twins_placed.history
  refine ⟨hh.cancels_all _,?_⟩
  have hstart : Cancelling "strategy" (twinning (some Decimal.one) (some Decimal.one) ["0","1"]) (withBid noOrders 100) []
    (Chain.start (twinning (some Decimal.one) (some Decimal.one) ["0","1"])) (withBid noOrders 100) := .start
  obtain ⟨r₁,c₁,h₁,hs₁,hp₁⟩ := hstart.next rfl (quoted 100 (withBid noOrders 100) [] 1)
    (twinning (some Decimal.one) (some Decimal.one) []).nodes (some ["0"]) (.messages 0 [closeBid 100] 0) rfl
    (quoting_answers _ _ _ _) (by decide +kernel) (.arrives rfl closeBid_carried .done) rfl
  obtain ⟨r₂,c₂,h₂,hs₂,hp₂⟩ := h₁.next hp₁ (quoted 100 noOrders [] 1) (twinning none (some Decimal.one) []).nodes
    (some ["0","1"]) (.failed 1 (.notFound "order")) rfl (quoting_answers _ _ _ _) (by rw [hs₁]; decide +kernel) .done rfl
  obtain ⟨r₃,c₃,h₃,hs₃,hp₃⟩ := h₂.next hp₂ (quoted 100 noOrders [] 1) (twinning none none []).nodes
    (some ["0","1"]) (.finished ["0","1"]) rfl (quoting_answers _ _ _ _) (by rw [hs₂,hs₁]; decide +kernel) .done rfl
  exact ⟨_,c₃,h₃,hp₃,by rw [hs₃,hs₂,hs₁]; rfl⟩

end

end StrategyContract

end CalcRs
