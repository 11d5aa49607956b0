import CalcRs.Actions.Orders
import CalcRs.Runs.Replacement

/-! Orders at FIN pairs over the life of a strategy: whether each order that it has open is named by a
stored node whenever no run is under way. -/
namespace CalcRs

/-- The orders at all pairs: a map from owner, pair, side and price. -/
abbrev Orders := Addr → Slot → Option OrderResponse

namespace Orders

def put (orders : Orders) (owner : Addr) (slot : Slot) (order : Option OrderResponse) : Orders :=
  fun o x => if o=owner ∧ x=slot then order else orders o x

@[simp] theorem put_owner (orders : Orders) (owner : Addr) (slot x : Slot) (order : Option OrderResponse) :
    orders.put owner slot order owner x=if x=slot then order else orders owner x := by simp [put]

/-- The queries about the orders of `owner` are answered from the map. -/
def Answers (orders : Orders) (owner : Addr) (deps : Deps) : Prop := ∀ slot,
  match orders owner slot with
  | some order => deps.finOrder slot.pair owner slot.side slot.price=.ok order
  | none => ∃ e, deps.finOrder slot.pair owner slot.side slot.price=.error e

/-- Fills and the orders of others: `owner` gets no order by them. -/
def Fills (owner : Addr) (orders orders' : Orders) : Prop :=
  ∀ slot, (orders' owner slot).isSome → (orders owner slot).isSome

/-- The entries of an order message, one after the other. -/
inductive Enters (owner : Addr) : List (Slot × Option ℕ) → Orders → Orders → Prop
  | done {orders : Orders} : Enters owner [] orders orders
  | close {slot : Slot} {rest : List (Slot × Option ℕ)} {orders orders' : Orders} :
      Enters owner rest (orders.put owner slot none) orders' → Enters owner ((slot,some 0) :: rest) orders orders'
  | set {slot : Slot} {target : ℕ} {order : OrderResponse} {rest : List (Slot × Option ℕ)} {orders orders' : Orders} :
      0<target → Enters owner rest (orders.put owner slot (some order)) orders' →
      Enters owner ((slot,some target) :: rest) orders orders'
  | claim {slot : Slot} {order : Option OrderResponse} {rest : List (Slot × Option ℕ)} {orders orders' : Orders} :
      (order.isSome → (orders owner slot).isSome) → Enters owner rest (orders.put owner slot order) orders' →
      Enters owner ((slot,none) :: rest) orders orders'

theorem Answers.exists_iff {orders : Orders}
    {deps : Deps} {env : Env} (h : orders.Answers env.contract deps) (slot : Slot) :
    Node.Exists deps env slot ↔ (orders env.contract slot).isSome := by
  have hs := h slot
  cases ho : orders env.contract slot with
  | some order =>
    simp only [ho] at hs
    exact ⟨fun _ => rfl,fun _ => ⟨order,hs⟩⟩
  | none =>
    simp only [ho] at hs
    obtain ⟨e,he⟩ := hs
    constructor
    · rintro ⟨order,h⟩
      simp [he] at h
    · simp

theorem Enters.onlyAt {owner : Addr} {orders orders' : Orders}
    {entries : List (Slot × Option ℕ)} (h : Enters owner entries orders orders') {at' : Option Slot}
    (hat : ∀ e ∈ entries, at'=some e.1) {slot : Slot} (ho : (orders' owner slot).isSome) :
    (orders owner slot).isSome ∨ at'=some slot := by
  have hput : ∀ {s : Slot} {order : Option OrderResponse} {orders : Orders}, at'=some s →
      (orders.put owner s order owner slot).isSome ∨ at'=some slot → (orders owner slot).isSome ∨ at'=some slot :=
    fun {s order orders} hs h => by
      rw [put_owner] at h
      split_ifs at h with he
      · exact .inr (he ▸ hs)
      · exact h
  induction h with
  | done => exact .inl ho
  | close _ ih => exact hput (hat _ List.mem_cons_self) (ih (fun e he => hat e (by simp [he])) ho)
  | set _ _ ih => exact hput (hat _ List.mem_cons_self) (ih (fun e he => hat e (by simp [he])) ho)
  | claim _ _ ih => exact hput (hat _ List.mem_cons_self) (ih (fun e he => hat e (by simp [he])) ho)

variable [Crates]

/-- A message of `owner` that is carried out. -/
def Carried (owner : Addr) (message : CosmosMsg) (orders orders' : Orders) : Prop :=
  ∃ mid, Enters owner message.orders orders mid ∧ Fills owner mid orders'

/-- The messages of one response with their outcomes: what fails is rolled back. -/
inductive Delivered (owner : Addr) (outcomes : ℕ → Except String Unit) : ℕ → List CosmosMsg → Orders → Orders → Prop
  | done {i : ℕ} {orders : Orders} : Delivered owner outcomes i [] orders orders
  | arrives {i : ℕ} {m : CosmosMsg} {ms : List CosmosMsg} {o₁ o₂ o₃ : Orders} : (outcomes i).isOk=true →
      Carried owner m o₁ o₂ → Delivered owner outcomes (i+1) ms o₂ o₃ → Delivered owner outcomes i (m :: ms) o₁ o₃
  | fails {i : ℕ} {m : CosmosMsg} {ms : List CosmosMsg} {o₁ o₂ : Orders} : (outcomes i).isOk=false →
      Delivered owner outcomes (i+1) ms o₁ o₂ → Delivered owner outcomes i (m :: ms) o₁ o₂

variable {owner : Addr} {orders orders' : Orders} {outcomes : ℕ → Except String Unit}

/-- Messages about one order open at most that one. -/
theorem Delivered.onlyAt {i : ℕ} {messages : List CosmosMsg} (h : Delivered owner outcomes i messages orders orders')
    {at' : Option Slot} (hat : OnlyAt at' messages) {slot : Slot} (ho : (orders' owner slot).isSome) :
    (orders owner slot).isSome ∨ at'=some slot := by
  induction h with
  | done => exact .inl ho
  | arrives _ hc _ ih =>
    obtain ⟨mid,henters,hfills⟩ := hc
    rcases ih (fun m hm => hat m (by simp [hm])) ho with h | h
    · exact henters.onlyAt (hat _ (by simp)) (hfills _ h)
    · exact .inr h
  | fails _ _ ih => exact ih (fun m hm => hat m (by simp [hm])) ho

/-- A closing message that arrives leaves no order in its place. -/
theorem Carried.closes {message : CosmosMsg} {closed : Slot} (h : Carried owner message orders orders')
    (hm : message.orders=[(closed,some 0)]) {slot : Slot} (ho : (orders' owner slot).isSome) :
    (orders owner slot).isSome ∧ slot≠closed := by
  obtain ⟨mid,henters,hfills⟩ := h
  have hmid := hfills _ ho
  rw [hm] at henters
  cases henters with
  | close h =>
    cases h
    rw [put_owner] at hmid
    split_ifs at hmid with he
    · simp at hmid
    · exact ⟨hmid,he⟩
  | set hpos _ => exact absurd hpos (lt_irrefl _)

end Orders

/-- Each order in `isOpen` is named by a stored node from `lo` on. -/
def NamedFrom (lo : ℕ) (isOpen : Slot → Prop) (nodes : Table ℕ Node) : Prop :=
  ∀ slot, isOpen slot → ∃ k node, nodes.get? k=some node ∧ lo≤k ∧ node.named=some slot

namespace NamedFrom

variable {lo : ℕ} {isOpen : Slot → Prop} {nodes : Table ℕ Node} {node node' : Node}

theorem mono {lo' : ℕ} {isOpen' : Slot → Prop} (h : NamedFrom lo isOpen nodes) (hlo : lo'≤lo)
    (ho : ∀ slot, isOpen' slot → isOpen slot) : NamedFrom lo' isOpen' nodes := fun slot hs => by
  obtain ⟨k,node,hk,hle,hn⟩ := h slot (ho slot hs)
  exact ⟨k,node,hk,hlo.trans hle,hn⟩

/-- A node may be replaced by one that still names its open order. -/
theorem save (h : NamedFrom lo isOpen nodes) (hn : nodes.get? node.index=some node) (hidx : node'.index=node.index)
    (hkeep : ∀ slot, isOpen slot → node.named=some slot → node'.named=some slot) :
    NamedFrom lo isOpen (NodeStore.save nodes node') := fun slot ho => by
  obtain ⟨k,n,hk,hle,hnamed⟩ := h slot ho
  by_cases he : k=node'.index
  · refine ⟨k,node',by simp [NodeStore.get?_save,he],hle,hkeep slot ho ?_⟩
    rw [he,hidx,hn] at hk
    rw [Option.some.inj hk,hnamed]
  · exact ⟨k,n,by rw [NodeStore.get?_save,if_neg he,hk],hle,hnamed⟩

end NamedFrom

namespace StrategyContract

section

variable [Crates]

/-- Why the strategy runs its nodes: for themselves, or to replace them by a list of this length. -/
inductive Purpose where
  | execute
  | cancel
  | replace (count : ℕ)

def Purpose.operation : Purpose → StrategyOperation
  | .execute => .execute
  | .cancel => .cancel
  | .replace _ => .cancel

def Progress.status : Progress → Status
  | .finished _ => .finished
  | .messages _ _ previous => .pending (some previous)
  | .failed index _ => .pending (some index)

/-- A run of `Process` calls whose messages change the orders. -/
inductive Trades (owner : Addr) (Allowed : Purpose → Turn → Processed → Prop) (purpose : Purpose)
    (s₀ : StrategyStorage) (o₀ : Orders) : StrategyStorage → Orders → Status → Prop
  | start : Trades owner Allowed purpose s₀ o₀ s₀ o₀ (.pending none)
  | call {s : StrategyStorage} {o o' : Orders} {previous : Option ℕ} {t : Turn} {r : Processed} :
      Trades owner Allowed purpose s₀ o₀ s o (.pending previous) → t.env.contract=owner → o.Answers owner t.deps →
      process t.gas t.deps t.env s purpose.operation previous=.ok r →
      Orders.Delivered owner t.outcomes 0 r.progress.emitted o o' → Allowed purpose t r →
      Trades owner Allowed purpose s₀ o₀ { s with nodes := r.nodes,path := r.path } o' r.progress.status

/-- The storage and the orders of a strategy between its runs. -/
inductive Lives (owner : Addr) (Allowed : Purpose → Turn → Processed → Prop) : StrategyStorage → Orders → Prop
  | instantiate {env env' : Env} {info : MessageInfo} {msg : StrategyInstantiateMsg} {gas : ℕ} {deps : Deps}
      {s₁ s₂ s₃ : StrategyStorage} {r₁ r₂ : StrategyResponse} {o o' : Orders} : (∀ slot, o owner slot=none) →
      StrategyContract.instantiate env info msg=.ok (s₁,r₁) →
      StrategyContract.execute gas deps env' ⟨owner,[]⟩ s₁ (.init msg.nodes)=.ok (s₂,r₂) →
      Trades owner Allowed .execute s₂ o s₃ o' .finished → Lives owner Allowed s₃ o'
  | fills {s : StrategyStorage} {o o' : Orders} : Lives owner Allowed s o → o.Fills owner o' →
      Lives owner Allowed s o'
  | execute {gas : ℕ} {deps : Deps} {env : Env} {info : MessageInfo} {s₁ s₂ s₃ : StrategyStorage}
      {r : StrategyResponse} {o o' : Orders} : Lives owner Allowed s₁ o →
      StrategyContract.execute gas deps env info s₁ .execute=.ok (s₂,r) →
      Trades owner Allowed .execute s₂ o s₃ o' .finished → Lives owner Allowed s₃ o'
  | cancel {gas : ℕ} {deps : Deps} {env : Env} {info : MessageInfo} {s₁ s₂ s₃ : StrategyStorage}
      {r : StrategyResponse} {o o' : Orders} : Lives owner Allowed s₁ o →
      StrategyContract.execute gas deps env info s₁ .cancel=.ok (s₂,r) →
      Trades owner Allowed .cancel s₂ o s₃ o' .finished → Lives owner Allowed s₃ o'
  | update {gas gas' : ℕ} {deps deps' : Deps} {env env' : Env} {info : MessageInfo} {nodes : List Node}
      {s₁ s₂ s₃ s₄ s₅ : StrategyStorage} {r r' : StrategyResponse} {o₁ o₂ o₃ : Orders} : Lives owner Allowed s₁ o₁ →
      StrategyContract.execute gas deps env info s₁ (.update nodes)=.ok (s₂,r) →
      Trades owner Allowed (.replace nodes.length) s₂ o₁ s₃ o₂ .finished →
      StrategyContract.execute gas' deps' env' ⟨owner,[]⟩ s₃ (.init nodes)=.ok (s₄,r') →
      Trades owner Allowed .execute s₄ o₂ s₅ o₃ .finished → Lives owner Allowed s₅ o₃

/-- The number of stored nodes that the run is about to replace. -/
def Purpose.count : Purpose → ℕ
  | .replace count => count
  | _ => 0

/-- The run gives up the order of the node: by a price reset, or with the node that is replaced. -/
def GivesUp (deps : Deps) (node : Node) (purpose : Purpose) : Prop :=
  match purpose with
  | .execute => node.isReset deps=true
  | _ => node.index<purpose.count

/-- The message that closes an order to be given up arrives, and no payment is an order message. -/
def ClosesFirst (purpose : Purpose) (t : Turn) (r : Processed) : Prop :=
  r.progress.emitted≠[] → ∀ node ∈ r.executed.getLast?,
    node.NoUserOrders ∧ (GivesUp t.deps node purpose → (t.outcomes 0).isOk=true)

variable {deps : Deps} {env : Env} {operation : StrategyOperation} {isOpen : Slot → Prop}

/-- What `execute` and `cancel` of a node without messages leave named. -/
theorem run_silent_named {node node' : Node} (h : run operation node deps env=.ok ([],node')) {slot : Slot}
    (hn : node.named=some slot) : node'.named=some slot := by
  cases operation with
  | execute =>
    rcases Node.execute_orders h with ⟨hkeep,_⟩ | ⟨_,_,_,_,_,_,hnil,_⟩
    · exact hkeep slot hn
    · cases hnil
  | cancel => rw [(Node.cancel_orders h).1,hn]

/-- The nodes name all open orders while a call is under way. -/
theorem process_named {lo gas : ℕ} {s : StrategyStorage} {previous : Option ℕ} {r : Processed} (hs : Sane s.nodes)
    (hsees : ∀ slot, Node.Exists deps env slot ↔ isOpen slot) (hn : NamedFrom lo isOpen s.nodes)
    (h : process gas deps env s operation previous=.ok r) :
    Ends operation deps env (fun nodes => Sane nodes ∧ NamedFrom lo isOpen nodes) r := by
  refine (process_invariant (I := fun nodes => Sane nodes ∧ NamedFrom lo isOpen nodes) (fun _ hi => hi.1)
    (fun nodes node node' hi hk hr => ?_) (fun _ => ⟨hs,hn⟩) (fun p node node' _ hk hc => ?_) h).ends
  · have hst : Stage node node' := .run operation deps env [] hr
    exact ⟨NodeStore.sane_save hi.1 hk hst.wiring,
      hi.2.save hk hst.index fun slot _ hnamed => run_silent_named hr hnamed⟩
  · have hst : Stage node node' := .commit deps env hc
    have hk' : s.nodes.get? node.index=some node := by rw [hs.index p node hk,hk]
    exact ⟨hs,NodeStore.sane_save hs hk' hst.wiring,
      hn.save hk' hst.index fun slot ho hnamed => Node.commit_named hc hnamed ((hsees slot).mpr ho)⟩

/-- An `Execute` call leaves no open order without a name when its reset closes the old order. -/
theorem execute_call_named {gas : ℕ} {s : StrategyStorage} {previous : Option ℕ} {t : Turn} {r : Processed}
    {o o' : Orders} (hs : Sane s.nodes) (hsees : o.Answers t.env.contract t.deps)
    (hn : NamedFrom 0 (fun slot => (o t.env.contract slot).isSome) s.nodes)
    (h : process gas t.deps t.env s .execute previous=.ok r)
    (hd : Orders.Delivered t.env.contract t.outcomes 0 r.progress.emitted o o')
    (hc : ClosesFirst .execute t r) : NamedFrom 0 (fun slot => (o' t.env.contract slot).isSome) r.nodes := by
  have hends := process_named hs (hsees.exists_iff) hn h
  unfold Ends at hends
  cases hp : r.progress with
  | failed i e =>
    simp only [hp] at hends hd
    cases hd
    exact hends.1.2
  | finished p =>
    simp only [hp] at hends hd
    cases hd
    exact hends.2
  | messages i ms q =>
    simp only [hp] at hends hd
    obtain ⟨nodes,node,node',hi,hk,hidx,hr,hne,he,_,hlast⟩ := hends
    obtain ⟨huser,hclose⟩ := hc (by simpa [hp,Progress.emitted] using hne) node hlast
    have hst : Stage node node' := .run .execute t.deps t.env ms hr
    have hk' : nodes.get? node.index=some node := hidx ▸ hk
    have hself : (NodeStore.save nodes node').get? node'.index=some node' := NodeStore.get?_save_self
    rw [he]
    simp only [Progress.emitted] at hd
    rcases Node.execute_orders hr with ⟨hkeep,honly⟩ | ⟨hreset,slot,close,rest,hnamed,hcl,rfl,hrest⟩
    · intro slot ho
      rcases hd.onlyAt (honly huser) ho with ho | ho
      · exact hi.2.save hk' hst.index (fun slot _ => hkeep slot) slot ho
      · exact ⟨_,node',hself,Nat.zero_le _,ho⟩
    · cases hd with
      | fails hfail _ => simp [hclose hreset] at hfail
      | arrives _ hcarried hd =>
        intro slot' ho
        rcases hd.onlyAt hrest ho with ho | ho
        · have hothers : NamedFrom 0 (fun x => (o t.env.contract x).isSome ∧ x≠slot) nodes :=
            hi.2.mono le_rfl fun _ h => h.1
          refine hothers.save hk' hst.index (fun x hx hnx => ?_) slot' (hcarried.closes hcl ho)
          exact absurd (Option.some.inj (hnx.symm.trans hnamed)) hx.2
        · exact ⟨_,node',hself,Nat.zero_le _,ho⟩

/-! ### Cancelling -/

/-- The next node of a cancelling run is the one stored under the next key. -/
theorem getNext_cancel {nodes : Table ℕ Node} {node : Node} {next : Option Node}
    (h : Fault.okay (NodeStore.getNext deps env nodes .cancel node)=.ok next) : next=nodes.get? (node.index+1) := by
  simp only [NodeStore.getNext,ne_eq,reduceCtorEq,not_false_eq_true,if_true,fits] at h
  split_ifs at h with hlt
  · rw [Except.ok_bind,okay_load] at h
    exact (Except.ok.inj h).symm
  · cases h

omit [Crates] in
/-- A node that names no open order may be left behind. -/
theorem NamedFrom.skip {lo count : ℕ} {nodes : Table ℕ Node} {node : Node} (h : NamedFrom (min lo count) isOpen nodes)
    (hk : nodes.get? lo=some node) (hnot : ∀ slot, isOpen slot → node.named≠some slot) :
    NamedFrom (min (lo+1) count) isOpen nodes := fun slot ho => by
  obtain ⟨k,n,hn,hle,hnamed⟩ := h slot ho
  by_cases hlo : k=lo
  · subst hlo
    obtain rfl := Option.some.inj (hk.symm.trans hn)
    exact absurd hnamed (hnot slot ho)
  · exact ⟨k,n,hn,by omega,hnamed⟩

/-- Where a cancelling run may go on: the orders open now are named by the nodes ahead of it, apart
from the nodes that will not be replaced. -/
def Ahead (count : ℕ) (isOpen : Slot → Prop) (nodes : Table ℕ Node) : Status → Prop
  | .pending previous => NamedFrom (min (previous.elim 0 (· +1)) count) isOpen nodes
  | .finished => ∃ lo, nodes.get? lo=none ∧ NamedFrom (min lo count) isOpen nodes

/-- How a cancelling call ends: with one closing message, or ahead of all open orders. -/
def CancelEnds (count : ℕ) (isOpen : Slot → Prop) (nodes : Table ℕ Node) (r : Processed) : Prop :=
  r.nodes=nodes ∧ match r.progress with
  | .messages i ms q => q=i ∧ NamedFrom (min i count) isOpen nodes ∧ ∃ node slot, nodes.get? i=some node ∧
      node.named=some slot ∧ ms=[slot.closing] ∧ r.executed.getLast?=some node
  | progress => Ahead count isOpen nodes progress.status

omit [Crates] in
theorem CancelEnds.cons {count : ℕ} {nodes : Table ℕ Node} {r : Processed} (h : CancelEnds count isOpen nodes r)
    (node : Node) (left : List Visit) :
    CancelEnds count isOpen nodes { r with executed := node :: r.executed,left := left } := by
  refine ⟨h.1,?_⟩
  have h := h.2
  cases hp : r.progress with
  | messages i ms q =>
    simp only [hp] at h ⊢
    obtain ⟨h1,h2,last,slot,h3,h4,h5,hlast⟩ := h
    exact ⟨h1,h2,last,slot,h3,h4,h5,by rw [List.getLast?_cons,hlast]; rfl⟩
  | failed i e =>
    simp only [hp] at h ⊢
    exact h
  | finished p =>
    simp only [hp] at h ⊢
    exact h

theorem Loops.cancelEnds {count lo : ℕ} {nodes : Table ℕ Node} {stored : Option (List String)} {path : List String}
    {next : Option Node} {r : Processed} (hs : Sane nodes) (hsees : ∀ slot, Node.Exists deps env slot ↔ isOpen slot)
    (hn : NamedFrom (min lo count) isOpen nodes) (hnext : next=nodes.get? lo)
    (h : Loops .cancel deps env stored nodes path next r) : CancelEnds count isOpen nodes r := by
  induction h generalizing lo with
  | finished => exact ⟨rfl,lo,hnext.symm,hn⟩
  | failed herr =>
    have hidx := hs.index lo _ hnext.symm
    obtain ⟨slot,hslot,hnot⟩ := Node.cancel_err_named herr
    refine ⟨NodeStore.save_stored (hidx.symm ▸ hnext.symm),?_⟩
    simp only [Progress.status,Ahead,Option.elim_some,hidx]
    exact NamedFrom.skip hn hnext.symm fun x hx hnx =>
      hnot ((hsees slot).mpr (Option.some.inj (hnx.symm.trans hslot) ▸ hx))
  | @messages nodes path current node messages hrun hne =>
    have hidx := hs.index lo _ hnext.symm
    obtain ⟨rfl,hm⟩ := Node.cancel_orders hrun
    have hk : nodes.get? node.index=some node := hidx.symm ▸ hnext.symm
    cases hnamed : node.named with
    | some slot =>
      simp only [hnamed,Option.map_some,Option.toList_some] at hm
      exact ⟨NodeStore.save_stored hk,rfl,hidx.symm ▸ hn,node,slot,hk,hnamed,hm,rfl⟩
    | none =>
      simp only [hnamed,Option.map_none,Option.toList_none] at hm
      exact absurd hm hne
  | @next nodes path current node next rest hrun hget hrest ih =>
    have hidx := hs.index lo _ hnext.symm
    obtain ⟨rfl,hm⟩ := Node.cancel_orders hrun
    have hsame : NodeStore.save nodes node=nodes := NodeStore.save_stored (hidx.symm ▸ hnext.symm)
    rw [hsame] at ih
    have hunnamed : ∀ slot, isOpen slot → node.named≠some slot := fun slot _ hnx => by
      simp [hnx] at hm
    have hskip := NamedFrom.skip hn hnext.symm hunnamed
    have hnext' : next=nodes.get? (lo+1) := by
      rw [getNext_cancel hget,hsame,hidx]
    exact (ih hs hskip hnext').cons _ _

/-- A cancelling call from where the run has come to. -/
theorem process_cancel_ends {count gas : ℕ} {s : StrategyStorage} {previous : Option ℕ} {r : Processed}
    (hs : Sane s.nodes) (hsees : ∀ slot, Node.Exists deps env slot ↔ isOpen slot)
    (hn : Ahead count isOpen s.nodes (.pending previous))
    (h : process gas deps env s .cancel previous=.ok r) :
    ∃ nodes, Sane nodes ∧ (∀ k, (nodes.get? k).isSome=(s.nodes.get? k).isSome) ∧ CancelEnds count isOpen nodes r := by
  cases process_eq_ok h with
  | first hloop => exact ⟨s.nodes,hs,fun _ => rfl,hloop.cancelEnds hs hsees hn rfl⟩
  | @resumed p node updated next path rest hk hget hc hpath hloop =>
    have hst : Stage node updated := .commit deps env hc
    have hidx := hs.index p node hk
    have hk' : s.nodes.get? node.index=some node := by rw [hidx,hk]
    have hsave := NodeStore.sane_save hs hk' hst.wiring
    have hnext : next=(NodeStore.save s.nodes updated).get? (p+1) := by
      rw [getNext_cancel hget,NodeStore.get?_save,hst.index,hidx,if_neg (by omega)]
    have hnamed : NamedFrom (min (p+1) count) isOpen (NodeStore.save s.nodes updated) :=
      NamedFrom.save hn hk' hst.index fun slot ho hnm => Node.commit_named hc hnm ((hsees slot).mpr ho)
    refine ⟨_,hsave,fun k => NodeStore.isSome_save (by rw [hst.index,hk']; rfl) k,?_⟩
    have hends := hloop.cancelEnds hsave hsees hnamed hnext
    exact hends

/-- A cancelling call that closes what it gives up stays behind all open orders. -/
theorem cancel_call_ahead {purpose : Purpose} {gas : ℕ} {s : StrategyStorage} {previous : Option ℕ} {t : Turn}
    {r : Processed} {o o' : Orders} (hp : purpose≠.execute) (hs : Sane s.nodes)
    (hsees : o.Answers t.env.contract t.deps)
    (hn : Ahead purpose.count (fun slot => (o t.env.contract slot).isSome) s.nodes (.pending previous))
    (h : process gas t.deps t.env s .cancel previous=.ok r)
    (hd : Orders.Delivered t.env.contract t.outcomes 0 r.progress.emitted o o') (hc : ClosesFirst purpose t r) :
    Ahead purpose.count (fun slot => (o' t.env.contract slot).isSome) r.nodes r.progress.status := by
  obtain ⟨nodes,hs',_,rfl,hends⟩ := process_cancel_ends hs hsees.exists_iff hn h
  cases hprog : r.progress with
  | failed i e =>
    simp only [hprog] at hends hd
    cases hd
    exact hends
  | finished p =>
    simp only [hprog] at hends hd
    cases hd
    exact hends
  | messages i ms q =>
    simp only [hprog] at hends hd
    obtain ⟨rfl,hnamed,node,slot,hk,hslot,rfl,hlast⟩ := hends
    simp only [Progress.emitted] at hd
    simp only [Progress.status,Ahead,Option.elim_some]
    cases hd with
    | arrives _ hcarried hrest =>
      cases hrest
      refine NamedFrom.skip (hnamed.mono le_rfl fun x hx => (hcarried.closes rfl hx).1) hk fun x hx hnx => ?_
      exact (hcarried.closes rfl hx).2 (Option.some.inj (hnx.symm.trans hslot))
    | fails hfail hrest =>
      cases hrest
      -- the order stays open, so its node is one that is not replaced
      have hnot : ¬node.index<purpose.count := fun hlt => by
        have hgives : GivesUp t.deps node purpose := by
          cases purpose with
          | execute => exact absurd rfl hp
          | cancel => exact hlt
          | replace count => exact hlt
        have := (hc (by simp [hprog,Progress.emitted]) node hlast).2 hgives
        simp [this] at hfail
      rw [hs'.index q node hk] at hnot
      exact hnamed.mono (by omega) fun _ hx => hx

/-! ### Runs -/

/-- The calls of a run belong to the history of the strategy. -/
theorem Trades.history {owner : Addr} {Allowed : Purpose → Turn → Processed → Prop} {purpose : Purpose}
    {s s' : StrategyStorage} {o o' : Orders} {status : Status} {lists : List (List Node)} (hs : History s lists)
    (h : Trades owner Allowed purpose s o s' o' status) : History s' lists := by
  induction h with
  | start => exact hs
  | @call s o o' previous t r _ _ _ hproc _ _ ih =>
    have hexec : execute t.gas t.deps t.env ⟨t.env.contract,[]⟩ s (.process purpose.operation previous)=
        .ok ({ s with nodes := r.nodes,path := r.path },processResponse t.env purpose.operation r.progress) := by
      rw [execute_process,hproc]
      rfl
    exact .call ih (by simp) hexec

/-- An executing run that closes what it gives up names every open order all along. -/
theorem Trades.execute_named {owner : Addr} {s s' : StrategyStorage} {o o' : Orders} {status : Status}
    {lists : List (List Node)} (hs : History s lists)
    (hn : NamedFrom 0 (fun slot => (o owner slot).isSome) s.nodes)
    (h : Trades owner ClosesFirst .execute s o s' o' status) :
    NamedFrom 0 (fun slot => (o' owner slot).isSome) s'.nodes := by
  induction h with
  | start => exact hn
  | call hprev henv hsees hproc hd hc ih =>
    subst henv
    exact execute_call_named (hprev.history hs).keys.1 hsees ih hproc hd hc

theorem Trades.cancel_ahead {owner : Addr} {purpose : Purpose} {s s' : StrategyStorage} {o o' : Orders}
    {status : Status} {lists : List (List Node)} (hp : purpose≠.execute) (hs : History s lists)
    (hn : NamedFrom 0 (fun slot => (o owner slot).isSome) s.nodes)
    (h : Trades owner ClosesFirst purpose s o s' o' status) :
    Ahead purpose.count (fun slot => (o' owner slot).isSome) s'.nodes status := by
  induction h with
  | start => exact hn.mono (by simp) fun _ hx => hx
  | call hprev henv hsees hproc hd hc ih =>
    subst henv
    have hop : purpose.operation=.cancel := by
      cases purpose with
      | execute => exact absurd rfl hp
      | cancel => rfl
      | replace count => rfl
    rw [hop] at hproc
    exact cancel_call_ahead hp (hprev.history hs).keys.1 hsees ih hproc hd hc

/-- A cancelling run that closes what it gives up ends with all open orders named by nodes that stay. -/
theorem Trades.cancel_named {owner : Addr} {purpose : Purpose} {s s' : StrategyStorage} {o o' : Orders}
    {lists : List (List Node)} (hp : purpose≠.execute) (hs : History s lists)
    (hn : NamedFrom 0 (fun slot => (o owner slot).isSome) s.nodes)
    (h : Trades owner ClosesFirst purpose s o s' o' .finished) :
    NamedFrom purpose.count (fun slot => (o' owner slot).isSome) s'.nodes := by
  obtain ⟨lo,hlo,hahead⟩ := h.cancel_ahead hp hs hn
  intro slot ho
  obtain ⟨k,node,hk,hle,hnamed⟩ := hahead slot ho
  refine ⟨k,node,hk,?_,hnamed⟩
  -- the keys in use are contiguous, so none of them lies beyond the free one
  have hkeys := (h.history hs).keys.2
  obtain ⟨l,hl,hkl⟩ := (hkeys k).mp (by simp [hk])
  have hlt : k<lo := by
    by_contra hge
    have := (hkeys lo).mpr ⟨l,hl,by omega⟩
    simp [hlo] at this
  omega

/-- `Init` replaces the nodes up to the length of the new list. -/
theorem init_named {gas : ℕ} {info : MessageInfo} {nodes : List Node} {s s' : StrategyStorage}
    {response : StrategyResponse} (h : execute gas deps env info s (.init nodes)=.ok (s',response))
    (hn : NamedFrom nodes.length isOpen s.nodes) : NamedFrom 0 isOpen s'.nodes := fun slot ho => by
  obtain ⟨k,node,hk,hle,hnamed⟩ := hn slot ho
  obtain ⟨inits,_,hg⟩ := NodeStore.init_eq_ok (execute_nodes h).2
  exact ⟨k,node,by rw [hg,if_neg (by omega),hk],Nat.zero_le _,hnamed⟩

theorem Lives.history {owner : Addr} {Allowed : Purpose → Turn → Processed → Prop} {s : StrategyStorage} {o : Orders}
    (h : Lives owner Allowed s o) : ∃ lists, History s lists := by
  induction h with
  | instantiate _ hinst hinit hrun => exact ⟨_,hrun.history (.init (.instantiate hinst) hinit)⟩
  | fills _ _ ih => exact ih
  | execute _ hexec hrun ih =>
    obtain ⟨lists,hl⟩ := ih
    exact ⟨lists,hrun.history (hl.call (by simp) hexec)⟩
  | cancel _ hexec hrun ih =>
    obtain ⟨lists,hl⟩ := ih
    exact ⟨lists,hrun.history (hl.call (by simp) hexec)⟩
  | update _ hexec hrun hinit hrun' ih =>
    obtain ⟨lists,hl⟩ := ih
    exact ⟨_,hrun'.history (.init (hrun.history (hl.call (by simp) hexec)) hinit)⟩

theorem Lives.named {owner : Addr} {s : StrategyStorage} {o : Orders} (h : Lives owner ClosesFirst s o) :
    NamedFrom 0 (fun slot => (o owner slot).isSome) s.nodes := by
  induction h with
  | instantiate hnone hinst hinit hrun =>
    exact hrun.execute_named (.init (.instantiate hinst) hinit) fun slot hs => by simp [hnone] at hs
  | fills _ hf ih => exact ih.mono le_rfl fun slot hs => hf slot hs
  | execute hl hexec hrun ih =>
    obtain ⟨lists,hh⟩ := hl.history
    exact hrun.execute_named (hh.call (by simp) hexec) ((execute_nodes hexec).2.1 ▸ ih)
  | cancel hl hexec hrun ih =>
    obtain ⟨lists,hh⟩ := hl.history
    exact hrun.cancel_named (by simp) (hh.call (by simp) hexec) ((execute_nodes hexec).2.1 ▸ ih)
  | update hl hexec hrun hinit hrun' ih =>
    obtain ⟨lists,hh⟩ := hl.history
    have hh' := hh.call (by simp) hexec
    have hstay := hrun.cancel_named (by simp) hh' ((execute_nodes hexec).2.1 ▸ ih)
    exact hrun'.execute_named (.init (hrun.history hh') hinit) (init_named hinit hstay)

/-- Between the runs of a strategy that closes what it gives up, each of its open orders is named by a
stored limit order node. -/
theorem open_orders_named {owner : Addr} {s : StrategyStorage} {o : Orders} (h : Lives owner ClosesFirst s o)
    (slot : Slot) (ho : (o owner slot).isSome) : ∃ k node, s.nodes.get? k=some node ∧ node.named=some slot := by
  obtain ⟨k,node,hk,_,hnamed⟩ := h.named slot ho
  exact ⟨k,node,hk,hnamed⟩

theorem Trades.mono {owner : Addr} {Allowed Allowed' : Purpose → Turn → Processed → Prop} {purpose : Purpose}
    {s s' : StrategyStorage} {o o' : Orders} {status : Status} (ha : ∀ p t r, Allowed p t r → Allowed' p t r)
    (h : Trades owner Allowed purpose s o s' o' status) : Trades owner Allowed' purpose s o s' o' status := by
  induction h with
  | start => exact .start
  | call _ henv hsees hproc hd hc ih => exact .call ih henv hsees hproc hd (ha _ _ _ hc)

theorem Lives.mono {owner : Addr} {Allowed Allowed' : Purpose → Turn → Processed → Prop} {s : StrategyStorage}
    {o : Orders} (ha : ∀ p t r, Allowed p t r → Allowed' p t r) (h : Lives owner Allowed s o) :
    Lives owner Allowed' s o := by
  induction h with
  | instantiate hnone hinst hinit hrun => exact .instantiate hnone hinst hinit (hrun.mono ha)
  | fills _ hf ih => exact .fills ih hf
  | execute _ hexec hrun ih => exact .execute ih hexec (hrun.mono ha)
  | cancel _ hexec hrun ih => exact .cancel ih hexec (hrun.mono ha)
  | update _ hexec hrun hinit hrun' ih => exact .update ih hexec (hrun.mono ha) hinit (hrun'.mono ha)

/-- A call whose result is known apart from the views of its history. -/
theorem Trades.step {owner : Addr} {Allowed : Purpose → Turn → Processed → Prop} {purpose : Purpose}
    {s₀ s : StrategyStorage} {o₀ o o' : Orders} {previous : Option ℕ}
    (h : Trades owner Allowed purpose s₀ o₀ s o (.pending previous)) (t : Turn) (nodes : Table ℕ Node)
    (path : Option (List String)) (progress : Progress) (executed : List Node) (henv : t.env.contract=owner)
    (hsees : o.Answers owner t.deps)
    (hproc : (fun r : Processed => (r.nodes,r.path,r.progress,r.executed)) <$>
      process t.gas t.deps t.env s purpose.operation previous=.ok (nodes,path,progress,executed))
    (hd : Orders.Delivered owner t.outcomes 0 progress.emitted o o')
    (ha : ∀ left, Allowed purpose t ⟨nodes,path,progress,executed,left⟩) :
    Trades owner Allowed purpose s₀ o₀ { s with nodes := nodes,path := path } o' progress.status := by
  obtain ⟨r,hr,he⟩ := Except.map_eq_ok.mp hproc
  cases he
  exact .call h henv hsees hr hd (ha r.left)

end

section

attribute [local instance] Crates.plain

/-- A limit order that follows the price of its pair. -/
def pegged (price : Option Decimal) : Node :=
  .action (.limitOrder ⟨"pair","rune",.fixed 100,.base,.offset .base .above (.exact ⟨0⟩) none,none,
    price.map StaleOrder.mk⟩) 0 none

def bid (price : ℕ) : OrderResponse := ⟨.base,Decimal.percent price,100,100,0⟩

def bidAt (price : ℕ) : Slot := ⟨"pair",.base,Decimal.percent price⟩

def noOrders : Orders := fun _ _ => none

def withBid (orders : Orders) (price : ℕ) : Orders := orders.put "strategy" (bidAt price) (some (bid price))

/-- A pair whose book is quoted at one price. -/
def quoting (price : ℕ) (orders : Orders) (own : List OrderResponse) : Deps :=
  { Deps.withBalance (fun _ _ => 1000) with
    finConfig := fun _ => .ok ⟨⟨"rune","usd"⟩,0⟩
    finBook := fun _ _ _ => .ok ⟨List.replicate 4 ⟨Decimal.percent price,10^4⟩,[]⟩
    finOrders := fun _ _ => .ok own
    finOrder := fun pair owner side price => match orders owner ⟨pair,side,price⟩ with
      | some order => .ok order
      | none => .error (.notFound "order") }

theorem quoting_answers (price : ℕ) (orders : Orders) (own : List OrderResponse) (owner : Addr) :
    orders.Answers owner (quoting price orders own) := fun slot => by
  cases h : orders owner slot with
  | some order => simp [quoting,h]
  | none => exact ⟨.notFound "order",by simp [quoting,h]⟩

/-- A call at this price; the message numbered `failing` is rejected, if there is one. -/
def quoted (price : ℕ) (orders : Orders) (own : List OrderResponse) (failing : ℕ) : Turn :=
  ⟨2,quoting price orders own,⟨⟨1,⟨1⟩⟩,"strategy"⟩,fun i => if i=failing then .error "rejected" else .ok ()⟩

def setBid (price : ℕ) : CosmosMsg :=
  .wasmExecute "pair" (.finOrder [(.base,Decimal.percent price,some 100)]) [⟨100,"rune"⟩]

def closeBid (price : ℕ) : CosmosMsg := .wasmExecute "pair" (.finOrder [(.base,Decimal.percent price,some 0)]) []

theorem setBid_carried (orders : Orders) (price : ℕ) :
    Orders.Carried "strategy" (setBid price) orders (withBid orders price) :=
  ⟨withBid orders price,.set (by decide) .done,fun _ h => h⟩

/-- The storage between runs, with a bid that is thought to be open at this price. -/
def pegging (price : ℕ) : StrategyStorage :=
  ⟨"manager","owner",[],[],[],Table.ofList [pegged (some (Decimal.percent price))],some ["0"]⟩

/-- A strategy that has placed its first bid. -/
theorem placed : Lives "strategy" ClosesFirst (pegging 100) (withBid noOrders 100) := by
  have hstart : Trades "strategy" ClosesFirst .execute (holding [pegged none]) noOrders (holding [pegged none]) noOrders
    (.pending none) := .start
  have hset := hstart.step (quoted 100 noOrders [] 1) (pegging 100).nodes (some ["0"]) (.messages 0 [setBid 100] 0)
    [pegged none] rfl (quoting_answers _ _ _ _) (by decide +kernel) (.arrives rfl (setBid_carried _ _) .done)
    fun _ _ node hn => by
      obtain rfl := Option.some.inj hn
      exact ⟨trivial,fun h => by cases h⟩
  have hdone := hset.step (quoted 100 (withBid noOrders 100) [bid 100] 0) (pegging 100).nodes (some ["0"])
    (.finished ["0"]) [] rfl (quoting_answers _ _ _ _) (by decide +kernel) .done fun _ h => absurd rfl h
  have hinst : instantiate ⟨⟨1,⟨1⟩⟩,"strategy"⟩ ⟨"manager",[]⟩ ⟨"strategy","owner",[],[pegged none]⟩=
    .ok (holding [],⟨[],[callSelf ⟨⟨1,⟨1⟩⟩,"strategy"⟩ (.init [pegged none])]⟩) := rfl
  have hinit : execute 0 Deps.silent ⟨⟨1,⟨1⟩⟩,"strategy"⟩ ⟨"strategy",[]⟩ (holding []) (.init [pegged none])=
    .ok (holding [pegged none],⟨[.init],[callSelf ⟨⟨1,⟨1⟩⟩,"strategy"⟩ (.process .execute none)]⟩) := by decide +kernel
  exact .instantiate (fun _ => rfl) hinst hinit hdone

/-- The price doubles, the message that closes the old bid is rejected and the new bid is set: the old
one stays open and no node names it. -/
theorem reset_forgets_order : ∃ s o, Lives "strategy" (fun _ _ _ => True) s o ∧
    s.nodes=Table.ofList [pegged (some (Decimal.percent 200))] ∧ (o "strategy" (bidAt 100)).isSome ∧
    ¬∃ k node, s.nodes.get? k=some node ∧ node.named=some (bidAt 100) := by
  have hexec : execute 0 Deps.silent ⟨⟨1,⟨1⟩⟩,"strategy"⟩ ⟨"manager",[]⟩ (pegging 100) .execute=
    .ok (pegging 100,⟨[.execute],[callSelf ⟨⟨1,⟨1⟩⟩,"strategy"⟩ (.process .execute none)]⟩) := by decide +kernel
  have hstart : Trades "strategy" (fun _ _ _ => True) .execute (pegging 100) (withBid noOrders 100) (pegging 100)
    (withBid noOrders 100) (.pending none) := .start
  have hreset := hstart.step (quoted 200 (withBid noOrders 100) [bid 100] 0) (pegging 200).nodes (some ["0"])
    (.messages 0 [closeBid 100,setBid 200] 0) [pegged (some (Decimal.percent 100))] rfl (quoting_answers _ _ _ _)
    (by decide +kernel) (.fails rfl (.arrives rfl (setBid_carried _ _) .done)) fun _ => trivial
  have hdone := hreset.step (quoted 200 (withBid (withBid noOrders 100) 200) [bid 100,bid 200] 0) (pegging 200).nodes
    (some ["0"]) (.finished ["0"]) [] rfl (quoting_answers _ _ _ _) (by decide +kernel) .done fun _ => trivial
  refine ⟨pegging 200,_,.execute (placed.mono fun _ _ _ _ => trivial) hexec hdone,rfl,by decide,?_⟩
  rintro ⟨k,node,hk,hn⟩
  rw [show (pegging 200).nodes=Table.ofList [pegged (some (Decimal.percent 200))] from rfl,Table.get?_ofList] at hk
  obtain rfl := List.mem_singleton.mp (List.mem_of_getElem? hk)
  exact absurd hn (by decide)

theorem open_orders_named_placed : ∃ k node, (pegging 100).nodes.get? k=some node ∧ node.named=some (bidAt 100) :=
  open_orders_named placed (bidAt 100) (by decide)

end

end StrategyContract
end CalcRs
