import CalcRs.Runs.Replacement

/-! Whatever node lists were installed one over the other, a run in `Execute` mode climbs: it meets no node
twice, also when it goes through nodes that an earlier list has left behind. -/
namespace CalcRs

/-- The edges of the stored nodes lead upwards in a numbering. -/
structure Ascends (rank : ℕ → ℕ) (nodes : Table ℕ Node) : Prop where
  sane : Sane nodes
  up : ∀ k node, nodes.get? k=some node → ∀ t ∈ node.wiring.targets, rank k < rank t

theorem Ascends.save {rank : ℕ → ℕ} {nodes : Table ℕ Node} {node : Node}
    (h : Ascends rank nodes) (hn : nodes.get? node.index=some node) {node' : Node}
    (hw : node'.wiring=node.wiring) : Ascends rank (NodeStore.save nodes node') := by
  refine ⟨NodeStore.sane_save h.sane hn hw,fun k n hk => ?_⟩
  rw [NodeStore.get?_save] at hk
  split_ifs at hk with he
  · rw [← Option.some.inj hk,hw,he,Node.index_congr hw]
    exact h.up _ _ hn
  · exact h.up k n hk

variable [Crates] {rank : ℕ → ℕ} {nodes : Table ℕ Node} {node next : Node}

theorem NodeStore.getNext_up {deps : Deps} {env : Env} (h : Ascends rank nodes) (hn : nodes.get? node.index=some node)
    (hg : Fault.okay (getNext deps env nodes .execute node)=.ok (some next)) :
    nodes.get? next.index=some next ∧ rank node.index < rank next.index := by
  obtain ⟨k,hk,⟨he,_⟩ | ⟨_,hnext⟩⟩ := getNext_eq_some hg
  · cases he
  · obtain rfl : next.index=k := h.sane.index k next hk
    exact ⟨hk,h.up _ _ hn _ (nextIndex_mem hnext)⟩

namespace StrategyContract

variable {deps : Deps} {env : Env}

theorem Loops.climbs {lo : ℕ} {stored : Option (List String)} {path : List String} {next : Option Node}
    {r : Processed} (ha : Ascends rank nodes)
    (hnext : ∀ n ∈ next, nodes.get? n.index=some n ∧ lo < rank n.index)
    (h : Loops .execute deps env stored nodes path next r) : ∀ n ∈ r.executed, lo < rank n.index := by
  induction h with
  | finished => simp
  | failed _ => simpa using (hnext _ rfl).2
  | messages _ _ => simpa using (hnext _ rfl).2
  | @next nodes path current node next rest hrun hget _ ih =>
    obtain ⟨hcur,hlo⟩ := hnext _ rfl
    have ha' := ha.save hcur (run_wiring hrun)
    have hup : ∀ n ∈ next, (NodeStore.save nodes node).get? n.index=some n ∧ lo < rank n.index := by
      intro n hn
      rw [Option.mem_def.mp hn] at hget
      obtain ⟨hst,hlt⟩ := NodeStore.getNext_up ha' NodeStore.get?_save_self hget
      exact ⟨hst,hlo.trans (run_index hrun ▸ hlt)⟩
    intro n hn
    rcases List.mem_cons.mp hn with rfl | hn
    · exact hlo
    · exact ih ha' hup n hn

/-- A call that goes on after a node executes only nodes above it. -/
theorem process_climbs {gas p : ℕ} {storage : StrategyStorage} {r : Processed} (ha : Ascends rank storage.nodes)
    (h : process gas deps env storage .execute (some p)=.ok r) : ∀ n ∈ r.executed, rank p < rank n.index := by
  cases process_eq_ok h with
  | @resumed p node updated next path rest hk hget hc hpath hloop =>
    have hidx := ha.sane.index p node hk
    have hk' : storage.nodes.get? node.index=some node := by rw [hidx,hk]
    have hup : ∀ n ∈ next, (NodeStore.save storage.nodes updated).get? n.index=some n ∧ rank p < rank n.index := by
      intro n hn
      refine ⟨next_stored ha.sane hk hc hget n hn,?_⟩
      rw [Option.mem_def.mp hn] at hget
      have hlt := (NodeStore.getNext_up ha hk' hget).2
      rwa [hidx] at hlt
    have hclimb := hloop.climbs (ha.save hk' (Node.commit_wiring hc)) hup
    exact hclimb

theorem execute_ascends {gas : ℕ} {info : MessageInfo} {s s' : StrategyStorage} {msg : StrategyExecuteMsg}
    {response : StrategyResponse} (ha : Ascends rank s.nodes) (hm : ∀ nodes, msg≠.init nodes)
    (h : execute gas deps env info s msg=.ok (s',response)) : Ascends rank s'.nodes := by
  obtain ⟨_,h⟩ := execute_nodes h
  cases msg with
  | init nodes => exact absurd rfl (hm nodes)
  | process operation previous =>
    obtain ⟨r,deposits,hn,_,hp⟩ := h
    rw [hn]
    have ha' : Ascends rank { s with deposits := deposits }.nodes := ha
    exact (process_preserves (fun _ h => h.sane) (fun _ _ _ hi hk hst => hi.save hk hst.wiring) ha' hp).1
  | execute => exact h.1 ▸ ha
  | update nodes => exact h.1 ▸ ha
  | withdraw amounts => exact h.1 ▸ ha
  | cancel => exact h.1 ▸ ha

/-- A new list goes above all nodes that are left behind. -/
theorem ascends_init {affiliates : List Affiliate} {store store' : Table ℕ Node} {list inits : List Node} {bound : ℕ}
    (ha : Ascends rank store) (hb : ∀ k, rank k<bound) (hi : NodeStore.Initialised deps env affiliates list inits)
    (hg : ∀ k, store'.get? k=if k<list.length then inits[k]? else store.get? k) :
    ∃ rank bound, Ascends rank store' ∧ ∀ k, rank k<bound := by
  obtain ⟨new,hnew,hup⟩ := hi.wellFormed.ranked
  simp only [List.length_map,hi.length] at hnew hup
  refine ⟨fun k => if k<list.length then bound+new k else rank k,bound+list.length,
    ⟨sane_init ha.sane hi hg,fun k node hk t ht => ?_⟩,fun k => ?_⟩
  · rw [hg] at hk
    by_cases hlt : k<list.length
    · rw [if_pos hlt] at hk
      obtain ⟨htb,hlt'⟩ := hup k hlt t (by simpa [hk] using ht)
      simp only [if_pos hlt,if_pos htb]
      omega
    · rw [if_neg hlt] at hk
      have hup' := ha.up k node hk t ht
      have hbk := hb k
      simp only [if_neg hlt]
      split_ifs <;> omega
  · have hbk := hb k
    by_cases hlt : k<list.length
    · have := hnew k hlt
      simp only [if_pos hlt]
      omega
    · simp only [if_neg hlt]
      omega

/-- The nodes of every strategy ascend, also those that its lists have left behind. -/
theorem History.ascends {s : StrategyStorage} {lists : List (List Node)} (h : History s lists) :
    ∃ rank, Ascends rank s.nodes := by
  have hall : ∃ rank bound, Ascends rank s.nodes ∧ ∀ k, rank k<bound := by
    induction h with
    | instantiate h =>
      obtain ⟨rfl,_⟩ := instantiate_eq_ok h
      exact ⟨fun _ => 0,1,⟨⟨by simp,by simp⟩,by simp⟩,by simp⟩
    | init _ he ih =>
      obtain ⟨rank,bound,ha,hb⟩ := ih
      obtain ⟨_,he⟩ := execute_nodes he
      obtain ⟨inits,hi,hg⟩ := NodeStore.init_eq_ok he
      exact ascends_init ha hb hi hg
    | call _ hm he ih =>
      obtain ⟨rank,bound,ha,hb⟩ := ih
      exact ⟨rank,bound,execute_ascends ha hm he,hb⟩
  obtain ⟨rank,_,ha,_⟩ := hall
  exact ⟨rank,ha⟩

end StrategyContract
end CalcRs
