import CalcRs.Foundation.Lists
import CalcRs.Model.Strategy
import Mathlib.Algebra.BigOperators.Fin

/-! The graph that `NodeStore::init` accepts and the store it leaves. The place of a node in the
graph is its wiring, which no stage of the node ever changes. -/
namespace CalcRs

/-- The place of a node in the graph. -/
inductive Wiring where
  | action (index : ℕ) (next : Option ℕ)
  | condition (index : ℕ) (onSuccess onFailure : Option ℕ)
  deriving DecidableEq

namespace Wiring

def index : Wiring → ℕ
  | action i _ => i
  | condition i _ _ => i

/-- The targets of the edges that leave the node. -/
def targets : Wiring → List ℕ
  | action _ next => next.toList
  | condition _ onSuccess onFailure => onSuccess.toList ++ onFailure.toList

end Wiring

namespace Node

def wiring : Node → Wiring
  | .action _ i next => .action i next
  | .condition _ i onSuccess onFailure => .condition i onSuccess onFailure

@[simp] theorem wiring_index (node : Node) : node.wiring.index=node.index := by cases node <;> rfl

variable {node node' : Node} {deps : Deps} {env : Env} {messages : List CosmosMsg}

theorem cancel_wiring (h : node.cancel deps env=.ok (messages,node')) : node'.wiring=node.wiring := by
  cases node with
  | action a i next =>
    obtain ⟨_,_,he⟩ := Except.map_eq_ok.mp h
    cases he
    rfl
  | condition c i s f =>
    obtain ⟨_,_,he⟩ := Except.map_eq_ok.mp h
    cases he
    rfl

theorem commit_wiring (h : node.commit deps env=.ok node') : node'.wiring=node.wiring := by
  cases node with
  | action a i next =>
    obtain ⟨_,_,rfl⟩ := Except.map_eq_ok.mp h
    rfl
  | condition c i s f =>
    obtain ⟨_,_,rfl⟩ := Except.map_eq_ok.mp h
    rfl

theorem one_le_size (node : Node) : 1≤node.size := by
  cases node with
  | action a _ _ => cases a <;> simp [size,Action.size]
  | condition c _ _ _ => cases c <;> simp [size,Condition.size]

theorem length_le_size (nodes : List Node) : nodes.length≤(nodes.map size).sum := by
  have hone : ∀ s ∈ nodes.map size, 1 ≤ s := fun s hs => by
    obtain ⟨node,_,rfl⟩ := List.mem_map.mp hs
    exact node.one_le_size
  simpa using List.length_le_sum_of_one_le (nodes.map size) hone

variable [Crates]

theorem init_wiring {affiliates : List Affiliate} (h : node.init deps env affiliates=.ok node') :
    node'.wiring=node.wiring := by
  cases node with
  | action a i next =>
    obtain ⟨_,_,rfl⟩ := Except.map_eq_ok.mp h
    rfl
  | condition c i s f =>
    obtain ⟨_,_,rfl⟩ := Except.map_eq_ok.mp h
    rfl

theorem execute_wiring (h : node.execute deps env=.ok (messages,node')) : node'.wiring=node.wiring := by
  cases node with
  | action a i next =>
    obtain ⟨_,_,he⟩ := Except.map_eq_ok.mp h
    cases he
    rfl
  | condition c i s f =>
    obtain ⟨_,_,he⟩ := Except.map_eq_ok.mp h
    cases he
    rfl

end Node

namespace NodeStore

theorem load_eq_ok {store : Table ℕ Node} {k : ℕ} {node : Node} : load store k=.ok node ↔ store.get? k=some node := by
  unfold load
  cases store.get? k <;> simp

theorem load_eq_error {store : Table ℕ Node} {k : ℕ} {f : Fault StdError} (h : load store k=.error f) :
    ∃ e, f=.err e := by
  unfold load at h
  cases hk : store.get? k with
  | some node => simp [hk] at h
  | none => exact ⟨_,by simpa [hk] using h.symm⟩

theorem get?_save (store : Table ℕ Node) (node : Node) (k : ℕ) :
    (save store node).get? k=if k=node.index then some node else store.get? k :=
  Table.get?_insert _ _ _ _

theorem edge_eq_ok {target : Option ℕ} {what : String} {nodeCount : ℕ} {ts : List ℕ}
    (h : edge target what nodeCount=.ok ts) : ts=target.toList ∧ ∀ t ∈ ts, t≤(nodeCount-1)%2^16 := by
  cases target with
  | none => obtain rfl : ts=[] := by simpa [edge] using h.symm
            simp
  | some t =>
    simp only [edge,genericErr,Except.ite_error_eq_ok,Except.ok.injEq] at h
    obtain ⟨hle,rfl⟩ := h
    simpa using hle

/-- The edges of an accepted node are those of its wiring, and all of them are in bounds. -/
theorem edges_eq_ok {nodeCount : ℕ} {node : Node} {ts : List ℕ} (h : edges nodeCount node=.ok ts) :
    ts=node.wiring.targets ∧ ∀ t ∈ ts, t≤(nodeCount-1)%2^16 := by
  cases node with
  | action a i next => exact edge_eq_ok h
  | condition c i s f =>
    rw [edges] at h
    obtain ⟨_,_,h⟩ := Except.bind_eq_ok.mp h
    obtain ⟨xs,hs,h⟩ := Except.bind_eq_ok.mp h
    obtain ⟨ys,hf,h⟩ := Except.bind_eq_ok.mp h
    obtain rfl : ts=xs ++ ys := (Except.ok.inj h).symm
    obtain ⟨rfl,hbs⟩ := edge_eq_ok hs
    obtain ⟨rfl,hbf⟩ := edge_eq_ok hf
    refine ⟨rfl,fun t ht => ?_⟩
    rcases List.mem_append.mp ht with ht | ht
    · exact hbs t ht
    · exact hbf t ht

theorem count_foldl (ts : List ℕ) (degrees : ℕ → ℕ) (v : ℕ) :
    ts.foldl (fun degrees t => Function.update degrees t (degrees t+1)) degrees v=degrees v+ts.count v := by
  induction ts generalizing degrees with
  | nil => simp
  | cons t ts ih =>
    rw [List.foldl_cons,ih]
    rcases eq_or_ne v t with rfl | hne
    · rw [Function.update_self,List.count_cons_self]
      omega
    · rw [Function.update_of_ne hne,List.count_cons_of_ne hne.symm]

theorem foldl_save_get? (inits : List Node) (store : Table ℕ Node) (k : ℕ)
    (hidx : ∀ i (hi : i < inits.length), inits[i].index=k+i) (j : ℕ) :
    (inits.foldl save store).get? j=if k≤j ∧ j<k+inits.length then inits[j-k]? else store.get? j := by
  induction inits generalizing store k with
  | nil => simp [show ¬(k≤j ∧ j<k) by omega]
  | cons node inits ih =>
    have h0 : node.index=k := hidx 0 (by simp)
    rw [List.foldl_cons,ih _ (k+1) (fun i hi => by
      have := hidx (i+1) (by simpa using hi)
      simp only [List.getElem_cons_succ] at this
      omega),get?_save,h0,List.length_cons]
    rcases lt_trichotomy j k with hj | rfl | hj
    · rw [if_neg (by omega),if_neg (by omega),if_neg (by omega)]
    · rw [if_neg (by omega),if_pos rfl,if_pos (by omega)]
      simp
    · by_cases hb : j<k+1+inits.length
      · obtain ⟨i,rfl⟩ : ∃ i, j=k+1+i := ⟨j-(k+1),by omega⟩
        rw [if_pos (by omega),if_pos (by omega),show k+1+i-(k+1)=i by omega,show k+1+i-k=i+1 by omega]
        simp
      · rw [if_neg (by omega),if_neg (by omega),if_neg (by omega)]

variable [Crates] {deps : Deps} {env : Env} {affiliates : List Affiliate}

/-- What the loop of `NodeStore::init` checks on the node at position `i`. -/
structure Accepts (deps : Deps) (env : Env) (affiliates : List Affiliate) (nodeCount : ℕ) (node : Node) (i : ℕ)
    (initialised : Node) : Prop where
  index : node.index=i%2^16
  bounded : ∀ t ∈ node.wiring.targets, t≤(nodeCount-1)%2^16
  init : node.init deps env affiliates=.ok initialised

theorem initNode_eq_ok {nodeCount i : ℕ} {node : Node} {state state' : InitState}
    (h : initNode deps env affiliates nodeCount state (node,i)=.ok state') :
    ∃ initialised, Accepts deps env affiliates nodeCount node i initialised ∧
      state'=⟨save state.store initialised,Function.update state.adjList i node.wiring.targets,
        node.wiring.targets.foldl (fun degrees t => Function.update degrees t (degrees t+1)) state.inDegrees,
        state.strategySize+initialised.size⟩ := by
  simp only [initNode,genericErr,Except.ite_error_eq_ok,not_not] at h
  obtain ⟨hi,h⟩ := h
  obtain ⟨ts,he,h⟩ := Except.bind_eq_ok.mp h
  obtain ⟨initialised,hn,h⟩ := Except.bind_eq_ok.mp h
  obtain ⟨rfl,hb⟩ := edges_eq_ok he
  exact ⟨initialised,⟨hi,hb,hn⟩,(Except.ok.inj h).symm⟩

/-- The whole loop: every node is accepted at its position, and the accumulators hold the
initialised nodes, the edges, the in-degrees and the size. -/
theorem initLoop_eq_ok {nodeCount k : ℕ} {nodes : List Node} {state state' : InitState}
    (h : (nodes.zipIdx k).foldlM (initNode deps env affiliates nodeCount) state=.ok state') :
    ∃ inits : List Node, inits.length=nodes.length ∧
      (∀ i (hi : i<nodes.length) (hi' : i < inits.length), Accepts deps env affiliates nodeCount nodes[i] (k+i) inits[i]) ∧
      state'.store=inits.foldl save state.store ∧
      (∀ u, state'.adjList u=if u<k then state.adjList u else
        (nodes[u-k]?.map fun node => node.wiring.targets).getD (state.adjList u)) ∧
      (∀ v, state'.inDegrees v=state.inDegrees v+(nodes.map fun node => node.wiring.targets.count v).sum) ∧
      state'.strategySize=state.strategySize+(inits.map Node.size).sum := by
  induction nodes generalizing k state with
  | nil =>
    obtain rfl : state=state' := by simpa using h
    exact ⟨[],by simp⟩
  | cons node nodes ih =>
    rw [List.zipIdx_cons,List.foldlM_cons] at h
    obtain ⟨state₁,h1,h⟩ := Except.bind_eq_ok.mp h
    obtain ⟨initialised,ha,rfl⟩ := initNode_eq_ok h1
    obtain ⟨inits,hlen,hall,hstore,hadj,hdeg,hsize⟩ := ih h
    refine ⟨initialised :: inits,by simp [hlen],fun i hi hi' => ?_,by simp [hstore],fun u => ?_,fun v => ?_,?_⟩
    · cases i with
      | zero => exact ha
      | succ i =>
        have := hall i (by simpa using hi) (by simpa using hi')
        simpa [Nat.add_assoc,Nat.add_comm 1] using this
    · rw [hadj]
      rcases lt_trichotomy u k with hu | rfl | hu
      · simp [hu,show u<k+1 by omega,show u≠k by omega]
      · simp
      · have hne : u≠k := by omega
        obtain ⟨j,rfl⟩ : ∃ j, u=k+1+j := ⟨u-(k+1),by omega⟩
        rw [if_neg (by omega),if_neg (by omega),show k+1+j-(k+1)=j by omega,show k+1+j-k=j+1 by omega]
        simp [Function.update_of_ne hne]
    · rw [hdeg]
      simp only [count_foldl,List.map_cons,List.sum_cons]
      omega
    · rw [hsize]
      simp [Nat.add_assoc]

/-- The wirings of a node list whose indices are its positions and whose edges stay in the list and
lead upwards in some numbering. -/
structure WellFormed (wirings : List Wiring) : Prop where
  index : ∀ i (hi : i<wirings.length), wirings[i].index=i
  short : wirings.length≤MAX_STRATEGY_SIZE
  ranked : Kahn.Ranked wirings.length fun u => (wirings[u]?.map Wiring.targets).getD []

/-- The nodes of a list after `init`, at their keys. -/
structure Initialised (deps : Deps) (env : Env) (affiliates : List Affiliate) (nodes inits : List Node) : Prop where
  length : inits.length=nodes.length
  init : ∀ i (hi : i<nodes.length) (hi' : i < inits.length), nodes[i].init deps env affiliates=.ok inits[i]
  index : ∀ i (hi : i < inits.length), inits[i].index=i
  wellFormed : WellFormed (inits.map Node.wiring)

/-- `NodeStore::init` stores the initialised nodes under their positions and touches no other key;
the graph it accepts is well formed. -/
theorem init_eq_ok {store store' : Table ℕ Node} {nodes : List Node}
    (h : init deps env affiliates store nodes=.ok store') :
    ∃ inits, Initialised deps env affiliates nodes inits ∧
      ∀ k, store'.get? k=if k<nodes.length then inits[k]? else store.get? k := by
  obtain ⟨state,hloop,h⟩ := Except.bind_eq_ok.mp h
  simp only [genericErr,Except.ite_error_eq_ok,not_lt] at h
  obtain ⟨hsize,h⟩ := h
  obtain ⟨count,hwalk,h⟩ := Except.bind_eq_ok.mp h
  simp only [Except.ite_error_eq_ok,not_not] at h
  obtain ⟨rfl,h⟩ := h
  obtain ⟨inits,hlen,hall,hstore,hadj,hdeg,hsum⟩ := initLoop_eq_ok hloop
  have hmap : ∀ i (hi : i<nodes.length), inits[i].wiring=nodes[i].wiring := fun i hi =>
    Node.init_wiring (hall i hi (hlen ▸ hi)).init
  have hshort : nodes.length≤MAX_STRATEGY_SIZE := by
    have hle := Node.length_le_size inits
    simp only [Nat.zero_add] at hsum
    omega
  have hmod : ∀ i<nodes.length, i%2^16=i := fun i hi =>
    Nat.mod_eq_of_lt (by simp only [MAX_STRATEGY_SIZE] at hshort; omega)
  have hidx : ∀ i (hi : i < inits.length), inits[i].index=i := fun i hi => by
    have hi' : i<nodes.length := hlen ▸ hi
    rw [← Node.wiring_index,hmap i hi',Node.wiring_index,(hall i hi' hi).index,Nat.zero_add,hmod i hi']
  have hadj' : ∀ u, state.adjList u=((inits.map Node.wiring)[u]?.map Wiring.targets).getD [] := fun u => by
    rw [hadj,if_neg (by omega),Nat.sub_zero]
    by_cases hu : u<nodes.length
    · have hu' : u < inits.length := hlen ▸ hu
      simp [hu,hu',hmap u hu]
    · simp [hu,show ¬u < inits.length by omega]
  refine ⟨inits,⟨hlen,fun i hi hi' => (hall i hi hi').init,hidx,?_,by simpa [hlen] using hshort,?_⟩,fun k => ?_⟩
  · intro i hi
    rw [List.getElem_map,Node.wiring_index]
    exact hidx i _
  · rw [List.length_map,hlen]
    have heq : state.adjList=fun u => ((inits.map Node.wiring)[u]?.map Wiring.targets).getD [] := funext hadj'
    rw [← heq]
    refine Kahn.ranked_of_walk (fun u hu v hv => ?_) (fun v => ?_) hwalk
    · have hu' : u < inits.length := hlen ▸ hu
      rw [hadj' u] at hv
      simp only [List.getElem?_map,List.getElem?_eq_getElem hu',Option.map_some,Option.getD_some,hmap u hu] at hv
      have := (hall u hu hu').bounded v hv
      have := hmod (nodes.length-1) (by omega)
      omega
    · rw [hdeg,sum_map_eq_sum_range]
      simp only [Nat.zero_add]
      refine Finset.sum_congr rfl fun u hu => ?_
      rw [hadj,if_neg (by omega),Nat.sub_zero]
      cases nodes[u]? <;> simp
  · obtain rfl := Except.ok.inj h
    rw [hstore,foldl_save_get? inits store 0 (fun i hi => by simpa using hidx i hi)]
    simp [hlen]

end NodeStore
end CalcRs
