import CalcRs.Foundation.Outcome
import Mathlib.Algebra.BigOperators.Group.Finset.Basic
import Mathlib.Algebra.Order.BigOperators.Group.Finset
import Mathlib.Data.Finset.Card
import Mathlib.Data.List.Chain
import Mathlib.Logic.Relation

/-! Kahn's algorithm over the vertices `0,…,n-1` with a stack as the work list. A walk that takes
every vertex has found a topological order, so no path along the edges meets a vertex twice. -/
namespace CalcRs.Kahn

variable {ε : Type}

/-- Removing the edges to `targets`: in-degrees drop, and a vertex whose in-degree reaches zero is
pushed. An in-degree of zero cannot drop. -/
def relax : List ℕ → (ℕ → ℕ) → List ℕ → Except (Fault ε) ((ℕ → ℕ) × List ℕ)
  | [],degrees,queue => .ok (degrees,queue)
  | t :: targets,degrees,queue =>
    if degrees t=0 then .error .panic
    else relax targets (Function.update degrees t (degrees t-1))
      (if degrees t-1=0 then t :: queue else queue)

/-- The work-list loop; it counts the vertices it takes. -/
def walk (adj : ℕ → List ℕ) : ℕ → (ℕ → ℕ) → List ℕ → ℕ → Except (Fault ε) ℕ
  | 0,_,_,_ => .error .outOfGas
  | _+1,_,[],processed => .ok processed
  | gas+1,degrees,current :: queue,processed => do
    let (degrees,queue) ← relax (adj current) degrees queue
    walk adj gas degrees queue (processed+1)

/-- The vertices pushed before the loop starts. -/
def sources (n : ℕ) (degrees : ℕ → ℕ) : List ℕ :=
  ((List.range n).filter fun i => degrees i=0).reverse

/-- The edges into `v` from vertices that have not been taken. -/
def incoming (n : ℕ) (adj : ℕ → List ℕ) (taken : List ℕ) (v : ℕ) : ℕ :=
  ∑ u ∈ Finset.range n \ taken.toFinset,(adj u).count v

/-- Every vertex comes after all its predecessors; the newest vertex is the head. -/
def Ordered (n : ℕ) (adj : ℕ → List ℕ) : List ℕ → Prop
  | [] => True
  | v :: taken => (∀ u<n, v ∈ adj u → u ∈ taken) ∧ Ordered n adj taken

/-- What the loop keeps. -/
structure Inv (n : ℕ) (adj : ℕ → List ℕ) (degrees : ℕ → ℕ) (queue taken : List ℕ) : Prop where
  degree : ∀ v, degrees v=incoming n adj taken v
  zero : ∀ v<n, degrees v=0 ↔ v ∈ queue ∨ v ∈ taken
  bounded : ∀ v ∈ queue ++ taken, v<n
  nodup : (queue ++ taken).Nodup
  ordered : Ordered n adj taken

theorem relax_eq_ok (targets : List ℕ) (degrees degrees' : ℕ → ℕ) (queue queue' : List ℕ)
    (h : relax (ε := ε) targets degrees queue=.ok (degrees',queue')) :
    (∀ v, degrees v=degrees' v+targets.count v) ∧
      ∃ pushed, queue'=pushed ++ queue ∧ pushed.Nodup ∧ ∀ v, v ∈ pushed ↔ v ∈ targets ∧ degrees' v=0 := by
  induction targets generalizing degrees queue with
  | nil =>
    obtain ⟨rfl,rfl⟩ : degrees=degrees' ∧ queue=queue' := by simpa [relax] using h
    exact ⟨by simp,[],by simp⟩
  | cons t targets ih =>
    rw [relax] at h
    split_ifs at h with hz h1
    · obtain ⟨hd,pushed,hq,hn,hm⟩ := ih _ _ h
      have ht := hd t
      simp only [Function.update_self] at ht
      have hnot : t ∉ targets := fun hmem => by
        have := List.count_pos_iff.mpr hmem
        omega
      refine ⟨fun v => ?_,pushed ++ [t],by simp [hq],?_,fun v => ?_⟩
      · have hv := hd v
        rcases eq_or_ne v t with rfl | hne
        · simp only [List.count_cons_self]; omega
        · rw [Function.update_of_ne hne] at hv
          rwa [List.count_cons_of_ne hne.symm]
      · refine List.nodup_append.mpr ⟨hn,List.nodup_singleton t,fun a ha b hb => ?_⟩
        rintro rfl
        exact hnot (List.mem_singleton.mp hb ▸ ((hm a).mp ha).1)
      · have h0 : degrees' t=0 := by omega
        rw [List.mem_append,List.mem_singleton,List.mem_cons,hm]
        constructor
        · rintro (⟨ha,hb⟩ | rfl)
          · exact ⟨.inr ha,hb⟩
          · exact ⟨.inl rfl,h0⟩
        · rintro ⟨rfl | ha,hb⟩
          · exact .inr rfl
          · exact .inl ⟨ha,hb⟩
    · obtain ⟨hd,pushed,hq,hn,hm⟩ := ih _ _ h
      have ht := hd t
      simp only [Function.update_self] at ht
      refine ⟨fun v => ?_,pushed,hq,hn,fun v => ?_⟩
      · have hv := hd v
        rcases eq_or_ne v t with rfl | hne
        · simp only [List.count_cons_self]; omega
        · rw [Function.update_of_ne hne] at hv
          rwa [List.count_cons_of_ne hne.symm]
      · rw [hm,List.mem_cons]
        constructor
        · rintro ⟨ha,hb⟩
          exact ⟨.inr ha,hb⟩
        · rintro ⟨rfl | ha,hb⟩
          · exact ⟨List.count_pos_iff.mp (by omega),hb⟩
          · exact ⟨ha,hb⟩

theorem incoming_cons {n v : ℕ} {adj : ℕ → List ℕ} {taken : List ℕ} (u : ℕ) (hu : u<n) (hn : u ∉ taken) :
    incoming n adj taken v=incoming n adj (u :: taken) v+(adj u).count v := by
  have hmem : u ∈ Finset.range n \ taken.toFinset := by simp [hu,hn]
  have herase : Finset.range n \ (u :: taken).toFinset=(Finset.range n \ taken.toFinset).erase u := by
    ext x
    simp only [List.toFinset_cons,Finset.mem_sdiff,Finset.mem_insert,Finset.mem_erase]
    tauto
  rw [incoming,incoming,herase,Nat.add_comm]
  exact (Finset.add_sum_erase _ (fun w => (adj w).count v) hmem).symm

theorem incoming_eq_zero {n v : ℕ} {adj : ℕ → List ℕ} {taken : List ℕ} :
    incoming n adj taken v=0 ↔ ∀ u<n, v ∈ adj u → u ∈ taken := by
  simp only [incoming,Finset.sum_eq_zero_iff,Finset.mem_sdiff,Finset.mem_range,List.mem_toFinset,
    List.count_eq_zero]
  constructor
  · intro h u hu hv
    by_contra hn
    exact h u ⟨hu,hn⟩ hv
  · rintro h u ⟨hu,hn⟩ hv
    exact hn (h u hu hv)

theorem inv_sources {n : ℕ} {adj : ℕ → List ℕ} {degrees : ℕ → ℕ}
    (hd : ∀ v, degrees v=∑ u ∈ Finset.range n,(adj u).count v) :
    Inv n adj degrees (sources n degrees) [] where
  degree v := by simp [hd,incoming]
  zero v hv := by simp [sources,hv]
  bounded v hv := by
    simp only [sources,List.append_nil,List.mem_reverse,List.mem_filter,List.mem_range] at hv
    exact hv.1
  nodup := by
    rw [List.append_nil,sources,List.nodup_reverse]
    exact List.nodup_range.filter _
  ordered := trivial

/-- Taking the top of the stack keeps the invariant. -/
theorem inv_step {n : ℕ} {adj : ℕ → List ℕ} {degrees degrees' : ℕ → ℕ} {current : ℕ} {queue queue' taken : List ℕ}
    (hadj : ∀ u<n, ∀ v ∈ adj u, v<n) (hi : Inv n adj degrees (current :: queue) taken)
    (h : relax (ε := ε) (adj current) degrees queue=.ok (degrees',queue')) :
    Inv n adj degrees' queue' (current :: taken) := by
  obtain ⟨hd,pushed,rfl,hnp,hm⟩ := relax_eq_ok _ _ _ _ _ h
  have hcur : current<n := hi.bounded current (by simp)
  have hnd : current ∉ queue ++ taken ∧ (queue ++ taken).Nodup := by simpa using hi.nodup
  have hfree : current ∉ taken := fun hc => hnd.1 (by simp [hc])
  have hdeg : ∀ v, degrees' v=incoming n adj (current :: taken) v := fun v => by
    have h1 := hi.degree v
    rw [incoming_cons current hcur hfree,hd v] at h1
    omega
  have hpushed : ∀ v, v ∈ pushed → v ∉ queue ∧ v ∉ taken ∧ v≠current := fun v hv => by
    obtain ⟨ht,h0⟩ := (hm v).mp hv
    have hpos : degrees v≠0 := by
      have := hd v
      have := List.count_pos_iff.mpr ht
      omega
    have hnot := fun hz => hpos ((hi.zero v (hadj current hcur v ht)).mpr hz)
    refine ⟨fun hq => hnot (.inl (by simp [hq])),fun hq => hnot (.inr hq),?_⟩
    rintro rfl
    exact hnot (.inl (by simp))
  refine ⟨hdeg,fun v hv => ?_,fun v hv => ?_,?_,?_,hi.ordered⟩
  · have hz := hi.zero v hv
    simp only [List.mem_cons] at hz
    simp only [List.mem_append,List.mem_cons,hm]
    by_cases h0 : degrees v=0
    · have h1 : degrees' v=0 := by have := hd v; omega
      have := hz.mp h0
      simp only [h1,and_true,true_iff]
      tauto
    · have hn : ¬((v=current ∨ v ∈ queue) ∨ v ∈ taken) := fun hc => h0 (hz.mpr hc)
      have ht : degrees' v=0 → v ∈ adj current := fun h1 => by
        have := hd v
        exact List.count_pos_iff.mp (by omega)
      tauto
  · simp only [List.mem_append,List.mem_cons] at hv
    rcases hv with (hv | hv) | hv | hv
    · exact hadj current hcur v ((hm v).mp hv).1
    · exact hi.bounded v (by simp [hv])
    · exact hv ▸ hcur
    · exact hi.bounded v (by simp [hv])
  · rw [List.append_assoc]
    refine List.nodup_append.mpr ⟨hnp,?_,fun a ha b hb => ?_⟩
    · exact (List.perm_middle.nodup_iff).mpr (List.nodup_cons.mpr hnd)
    · rintro rfl
      obtain ⟨h1,h2,h3⟩ := hpushed a ha
      simp [h1,h2,h3] at hb
  · exact incoming_eq_zero.mp ((hi.degree current).symm.trans ((hi.zero current hcur).mpr (by simp)))

/-- A walk that ends has taken the vertices it counted, each after its predecessors. -/
theorem walk_eq_ok {n gas : ℕ} {adj : ℕ → List ℕ} {degrees : ℕ → ℕ} {queue taken : List ℕ} {count : ℕ}
    (hadj : ∀ u<n, ∀ v ∈ adj u, v<n) (hi : Inv n adj degrees queue taken)
    (h : walk (ε := ε) adj gas degrees queue taken.length=.ok count) :
    ∃ order, Ordered n adj order ∧ order.Nodup ∧ (∀ v ∈ order, v<n) ∧ order.length=count := by
  induction gas generalizing degrees queue taken with
  | zero => simp [walk] at h
  | succ gas ih =>
    cases queue with
    | nil =>
      refine ⟨taken,hi.ordered,by simpa using hi.nodup,fun v hv => hi.bounded v (by simp [hv]),?_⟩
      simpa [walk] using h
    | cons current queue =>
      rw [walk] at h
      obtain ⟨⟨degrees',queue'⟩,hr,h⟩ := Except.bind_eq_ok.mp h
      exact ih (inv_step hadj hi hr) h

/-- How many vertices were taken before `v`. -/
def rank : List ℕ → ℕ → ℕ
  | [],_ => 0
  | w :: taken,v => if v=w then taken.length else rank taken v

theorem rank_lt_length {order : List ℕ} {v : ℕ} (h : v ∈ order) : rank order v<order.length := by
  induction order with
  | nil => simp at h
  | cons w order ih =>
    rw [rank]
    split_ifs with hv
    · simp
    · have := ih (by simpa [hv] using h)
      simp only [List.length_cons]
      omega

theorem Ordered.rank_lt {n : ℕ} {adj : ℕ → List ℕ} {order : List ℕ} (ho : Ordered n adj order)
    (hn : order.Nodup) {u v : ℕ} (hu : u<n) (hv : v ∈ order) (he : v ∈ adj u) :
    u ∈ order ∧ rank order u < rank order v := by
  induction order with
  | nil => simp at hv
  | cons w order ih =>
    obtain ⟨hw,ho⟩ := ho
    obtain ⟨hnw,hn⟩ := List.nodup_cons.mp hn
    rcases eq_or_ne v w with rfl | hne
    · have hmem := hw u hu he
      have hu' : u≠v := fun h => hnw (h ▸ hmem)
      refine ⟨by simp [hmem],?_⟩
      rw [rank,rank,if_neg hu',if_pos rfl]
      exact rank_lt_length hmem
    · obtain ⟨hmem,hlt⟩ := ih ho hn (by simpa [hne] using hv)
      have hu' : u≠w := fun h => hnw (h ▸ hmem)
      refine ⟨by simp [hmem],?_⟩
      rwa [rank,rank,if_neg hu',if_neg hne]

/-- The edges lead upwards in some numbering of the vertices. -/
def Ranked (n : ℕ) (adj : ℕ → List ℕ) : Prop :=
  ∃ rank : ℕ → ℕ, (∀ u<n, rank u<n) ∧ ∀ u<n, ∀ v ∈ adj u, v<n ∧ rank u < rank v

/-- A walk that takes every vertex proves that there is no cycle. -/
theorem ranked_of_walk {n gas : ℕ} {adj : ℕ → List ℕ} {degrees : ℕ → ℕ}
    (hadj : ∀ u<n, ∀ v ∈ adj u, v<n) (hd : ∀ v, degrees v=∑ u ∈ Finset.range n,(adj u).count v)
    (h : walk (ε := ε) adj gas degrees (sources n degrees) 0=.ok n) : Ranked n adj := by
  have hstart : walk adj gas degrees (sources n degrees) ([] : List ℕ).length=.ok n := h
  obtain ⟨order,ho,hn,hb,hl⟩ := walk_eq_ok hadj (inv_sources hd) hstart
  have hsub : order.toFinset ⊆ Finset.range n := fun v hv => by simpa using hb v (by simpa using hv)
  have hall : order.toFinset=Finset.range n :=
    Finset.eq_of_subset_of_card_le hsub (by rw [List.toFinset_card_of_nodup hn,Finset.card_range,hl])
  have hmem : ∀ v<n, v ∈ order := fun v hv => by
    have : v ∈ order.toFinset := hall ▸ Finset.mem_range.mpr hv
    simpa using this
  exact ⟨rank order,fun u hu => hl ▸ rank_lt_length (hmem u hu),
    fun u hu v hv => ⟨hadj u hu v hv,(ho.rank_lt hn hu (hmem v (hadj u hu v hv)) hv).2⟩⟩

/-- A path along the edges of a ranked graph meets no vertex twice. -/
theorem Ranked.path_nodup {n : ℕ} {adj : ℕ → List ℕ} (hr : Ranked n adj) {path : List ℕ}
    (hb : ∀ v ∈ path, v<n) (hp : path.IsChain fun u v => v ∈ adj u) : path.Nodup := by
  obtain ⟨rank,_,hrank⟩ := hr
  have hlt : path.IsChain fun u v => rank u < rank v :=
    hp.imp_of_mem_imp fun u v hu _ he => (hrank u (hb u hu) v he).2
  have htrans : Trans (fun u v : ℕ => rank u < rank v) (fun u v => rank u < rank v) (fun u v => rank u < rank v) :=
    ⟨fun h1 h2 => h1.trans h2⟩
  exact (List.isChain_iff_pairwise.mp hlt).imp fun h => by rintro rfl; exact lt_irrefl _ h

/-- A duplicate-free list of vertices is no longer than the graph. -/
theorem length_le {n : ℕ} {path : List ℕ} (hb : ∀ v ∈ path, v<n) (hn : path.Nodup) : path.length≤n := by
  have hsub : path.toFinset ⊆ Finset.range n := fun v hv => by simpa using hb v (by simpa using hv)
  simpa [List.toFinset_card_of_nodup hn] using Finset.card_le_card hsub

section

open Classical

variable {α : Type*} {vertices : Finset α} {leads : α → α → Prop} {u v : α}

/-- How many of the vertices can be reached from one of them. -/
noncomputable def below (vertices : Finset α) (leads : α → α → Prop) (u : α) : ℕ :=
  (vertices.filter (Relation.TransGen leads u)).card

theorem below_le : below vertices leads u ≤ vertices.card := Finset.card_filter_le _ _

/-- From the end of an edge there are fewer, unless it can be reached again. -/
theorem below_lt (h : leads u v) (hv : v ∈ vertices) (hirr : ¬Relation.TransGen leads v v) :
    below vertices leads v < below vertices leads u := by
  apply Finset.card_lt_card
  rw [Finset.ssubset_iff_of_subset]
  · exact ⟨v,Finset.mem_filter.mpr ⟨hv,.single h⟩,fun hmem => hirr (Finset.mem_filter.mp hmem).2⟩
  · intro w hw
    obtain ⟨hmem,hpath⟩ := Finset.mem_filter.mp hw
    exact Finset.mem_filter.mpr ⟨hmem,.head h hpath⟩

end

/-! ### Every walk ends, and an acyclic graph is taken whole -/

/-- The vertices that the walk takes, in this order. -/
def visits (adj : ℕ → List ℕ) : ℕ → (ℕ → ℕ) → List ℕ → Except (Fault ε) (List ℕ)
  | 0,_,_ => .error .outOfGas
  | _+1,_,[] => .ok []
  | gas+1,degrees,current :: queue => do
    let (degrees,queue) ← relax (adj current) degrees queue
    let rest ← visits adj gas degrees queue
    return current :: rest

theorem walk_eq_visits (adj : ℕ → List ℕ) (gas : ℕ) (degrees : ℕ → ℕ) (queue : List ℕ) (processed : ℕ) :
    walk (ε := ε) adj gas degrees queue processed=(fun order => processed+order.length) <$> visits adj gas degrees queue := by
  induction gas generalizing degrees queue processed with
  | zero => rfl
  | succ gas ih =>
    cases queue with
    | nil => rfl
    | cons current queue =>
      rw [walk,visits]
      cases hr : relax (ε := ε) (adj current) degrees queue with
      | error f => rfl
      | ok r =>
        rw [Except.ok_bind,Except.ok_bind]
        dsimp only
        rw [ih]
        cases visits (ε := ε) adj gas r.1 r.2 with
        | error f => rfl
        | ok order =>
          rw [Except.map_ok,Except.ok_bind,Except.pure_eq_ok,Except.map_ok,List.length_cons]
          congr 1
          omega

/-- In-degrees that count the edges never underflow. -/
theorem relax_of_le (targets : List ℕ) (degrees : ℕ → ℕ) (queue : List ℕ) (h : ∀ v, targets.count v≤degrees v) :
    ∃ r, relax (ε := ε) targets degrees queue=.ok r := by
  induction targets generalizing degrees queue with
  | nil => exact ⟨_,rfl⟩
  | cons t targets ih =>
    have ht := h t
    rw [List.count_cons_self] at ht
    rw [relax,if_neg (by omega)]
    refine ih _ _ fun v => ?_
    have hv := h v
    rcases eq_or_ne v t with rfl | hne
    · rw [Function.update_self]
      omega
    · rw [Function.update_of_ne hne]
      rwa [List.count_cons_of_ne hne.symm] at hv

/-- The walk takes each vertex at most once, so it ends; what it has not taken then has a predecessor of this kind. -/
theorem visits_ends {n gas : ℕ} {adj : ℕ → List ℕ} {degrees : ℕ → ℕ} {queue taken : List ℕ}
    (hadj : ∀ u<n, ∀ v ∈ adj u, v<n) (hi : Inv n adj degrees queue taken) (hgas : n<gas+taken.length) :
    ∃ order, visits (ε := ε) adj gas degrees queue=.ok order ∧ (order.reverse ++ taken).Nodup ∧
      (∀ v ∈ order, v<n) ∧ ∀ v<n, v ∉ order → v ∉ taken → ∃ u<n, u ∉ order ∧ u ∉ taken ∧ v ∈ adj u := by
  have hlen : (queue ++ taken).length≤n := length_le hi.bounded hi.nodup
  rw [List.length_append] at hlen
  induction gas generalizing degrees queue taken with
  | zero => omega
  | succ gas ih =>
    cases queue with
    | nil =>
      refine ⟨[],rfl,by simpa using hi.nodup,by simp,fun v hv _ hvt => ?_⟩
      have hpos : incoming n adj taken v≠0 := fun h0 => by
        have := (hi.zero v hv).mp ((hi.degree v).trans h0)
        simp [hvt] at this
      rw [Ne,incoming_eq_zero] at hpos
      push Not at hpos
      obtain ⟨u,hu,hedge,hut⟩ := hpos
      exact ⟨u,hu,by simp,hut,hedge⟩
    | cons current queue =>
      have hcur : current<n := hi.bounded current (by simp)
      have hfree : current ∉ taken := fun hc => by
        have := hi.nodup
        simp [hc] at this
      have hcount : ∀ v, (adj current).count v≤degrees v := fun v => by
        rw [hi.degree v,incoming_cons current hcur hfree]
        exact Nat.le_add_left _ _
      obtain ⟨⟨degrees',queue'⟩,hr⟩ := @relax_of_le ε (adj current) degrees queue hcount
      have hnext := inv_step hadj hi hr
      have hlen' : (queue' ++ (current :: taken)).length≤n := length_le hnext.bounded hnext.nodup
      rw [List.length_append] at hlen'
      obtain ⟨order,hv,hn,hb,hrest⟩ := ih hnext (by rw [List.length_cons]; omega) hlen'
      refine ⟨current :: order,?_,?_,?_,fun v hv' hvo hvt => ?_⟩
      · rw [visits,hr,Except.ok_bind]
        dsimp only
        rw [hv]
        rfl
      · rw [List.reverse_cons,List.append_assoc]
        exact hn
      · rintro v (_ | ⟨_,hmem⟩)
        · exact hcur
        · exact hb v hmem
      · rw [List.mem_cons,not_or] at hvo
        obtain ⟨u,hu,huo,hut,hedge⟩ := hrest v hv' hvo.2 (by rw [List.mem_cons,not_or]; exact ⟨hvo.1,hvt⟩)
        rw [List.mem_cons,not_or] at hut
        exact ⟨u,hu,by rw [List.mem_cons,not_or]; exact ⟨hut.1,huo⟩,hut.2,hedge⟩

/-- No path along the edges comes back to where it started. -/
def Acyclic (n : ℕ) (adj : ℕ → List ℕ) : Prop :=
  ∀ u, ¬Relation.TransGen (fun u v => u<n ∧ v ∈ adj u) u u

theorem Ranked.acyclic {n : ℕ} {adj : ℕ → List ℕ} (h : Ranked n adj) : Acyclic n adj := by
  obtain ⟨rank,_,hrank⟩ := h
  have hlt : ∀ u v, Relation.TransGen (fun u v => u<n ∧ v ∈ adj u) u v → rank u < rank v := by
    intro u v hp
    induction hp with
    | single he => exact (hrank _ he.1 _ he.2).2
    | tail _ he ih => exact ih.trans (hrank _ he.1 _ he.2).2
  exact fun u hp => lt_irrefl _ (hlt u u hp)

/-- Vertices that each have a predecessor among them lie on a cycle, if there are any. -/
theorem Acyclic.no_predecessors {n : ℕ} {adj : ℕ → List ℕ} (h : Acyclic n adj) {left : ℕ → Prop}
    (hleft : ∀ v<n, left v → ∃ u<n, left u ∧ v ∈ adj u) (v : ℕ) (hv : v<n) : ¬left v := by
  intro hl
  have hbelow : ∀ k, ∃ v<n, left v ∧ k≤below (Finset.range n) (fun u v => u<n ∧ v ∈ adj u) v := by
    intro k
    induction k with
    | zero => exact ⟨v,hv,hl,Nat.zero_le _⟩
    | succ k ih =>
      obtain ⟨w,hw,hwl,hk⟩ := ih
      obtain ⟨u,hu,hul,hedge⟩ := hleft w hw hwl
      exact ⟨u,hu,hul,hk.trans_lt (below_lt ⟨hu,hedge⟩ (Finset.mem_range.mpr hw) (h w))⟩
  obtain ⟨w,_,_,hmax⟩ := hbelow (n+1)
  have hcard := @below_le ℕ (Finset.range n) (fun u v => u<n ∧ v ∈ adj u) w
  rw [Finset.card_range] at hcard
  omega

/-- The walk counts all vertices exactly when the graph is acyclic. -/
theorem walk_all_iff {n : ℕ} {adj : ℕ → List ℕ} {degrees : ℕ → ℕ} (hadj : ∀ u<n, ∀ v ∈ adj u, v<n)
    (hd : ∀ v, degrees v=∑ u ∈ Finset.range n,(adj u).count v) :
    (∃ order, visits (ε := ε) adj (n+1) degrees (sources n degrees)=.ok order ∧ order.Nodup ∧ ∀ v ∈ order, v<n) ∧
    (walk (ε := ε) adj (n+1) degrees (sources n degrees) 0=.ok n ↔ Acyclic n adj) := by
  obtain ⟨order,hv,hn,hb,hrest⟩ := @visits_ends ε n (n+1) adj degrees _ [] hadj (inv_sources hd) (Nat.lt_succ_self n)
  rw [List.append_nil,List.nodup_reverse] at hn
  refine ⟨⟨order,hv,hn,hb⟩,fun h => (ranked_of_walk hadj hd h).acyclic,fun h => ?_⟩
  have hall : ∀ v<n, v ∈ order := fun v hvn => by
    by_contra hvo
    refine @Acyclic.no_predecessors n adj h (fun v => v ∉ order) (fun w hw hwo => ?_) v hvn hvo
    obtain ⟨u,hu,huo,_,hedge⟩ := hrest w hw hwo List.not_mem_nil
    exact ⟨u,hu,huo,hedge⟩
  have hlen : order.length=n := by
    have hset : order.toFinset=Finset.range n := by
      ext v
      rw [List.mem_toFinset,Finset.mem_range]
      exact ⟨hb v,hall v⟩
    rw [← List.toFinset_card_of_nodup hn,hset,Finset.card_range]
  rw [walk_eq_visits,hv,Except.map_ok,Nat.zero_add,hlen]

end CalcRs.Kahn
