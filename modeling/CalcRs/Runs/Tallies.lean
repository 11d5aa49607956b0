import CalcRs.Actions.Destinations
import CalcRs.Runs.Replacement

/-! The tallies of a `Distribute` node over the runs of its strategy. The node stores them before its
messages are delivered, and a failed message is only reported. -/
namespace CalcRs

/-- The amount of a denom in the tallies of a destination. -/
def Destination.recorded (d : Destination) (x : Denom) : ℕ := amountIn x (d.distributions.getD [])

/-- What the destinations of a node were actually sent: those that are stored, in their order, and
those that are not stored any more. -/
structure Ledger where
  received : List (Denom → ℕ)
  dropped : List (Denom → ℕ)

namespace Ledger

/-- The receipts of the stored destinations after an execution with these payouts, of which the
messages numbered `arrives` are delivered. -/
def settle (arrives : ℕ → Bool) : ℕ → List (Destination × List Coin) → List (Denom → ℕ) → List (Denom → ℕ)
  | i,p :: payouts,r :: received =>
    if p.2=[] then settle arrives i payouts received
    else (fun x => r x+if arrives i then amountIn x p.2 else 0) :: settle arrives (i+1) payouts received
  | _,_,_ => []

/-- The receipts of the destinations that an execution drops. -/
def lose (payouts : List (Destination × List Coin)) (received : List (Denom → ℕ)) : List (Denom → ℕ) :=
  ((payouts.zip received).filter fun e => e.1.2=[]).map Prod.snd

/-- The books after an execution with these payouts. -/
def enter (ledger : Ledger) (payouts : List (Destination × List Coin)) (arrives : ℕ → Bool) : Ledger :=
  ⟨settle arrives 0 payouts ledger.received,ledger.dropped ++ lose payouts ledger.received⟩

/-- What is recorded for a list of destinations is what they received, and the others received nothing. -/
structure Exact (ledger : Ledger) (ds : List Destination) : Prop where
  stored : List.Forall₂ (fun d r => ∀ x, d.recorded x=r x) ds ledger.received
  dropped : ∀ r ∈ ledger.dropped, ∀ x, r x=0

theorem tally_recorded {d d' : Destination} {coins : List Coin} (h : Distribution.tally d coins=.ok d') (x : Denom) :
    d'.recorded x=d.recorded x+amountIn x coins := by
  obtain ⟨before,after,hb,ha,rfl⟩ := Distribution.tally_eq_ok h
  rw [Destination.recorded,Option.getD_some,Coins.amountIn_toVec,Coins.addAll_amountOf ha,Coins.tryFrom_amountOf hb]
  rfl

theorem settle_exact {arrives : ℕ → Bool} {payouts : List (Destination × List Coin)} {received : List (Denom → ℕ)}
    {ds' : List Destination} {i : ℕ}
    (hs : List.Forall₂ (fun p r => ∀ x, p.1.recorded x=r x) payouts received)
    (ha : ∀ j, i≤j → j < i+(payouts.filter fun p => p.2≠[]).length → arrives j=true)
    (ht : List.Forall₂ (fun p d => Distribution.tally p.1 p.2=.ok d) (payouts.filter fun p => p.2≠[]) ds') :
    List.Forall₂ (fun d r => ∀ x, d.recorded x=r x) ds' (settle arrives i payouts received) := by
  induction hs generalizing i ds' with
  | nil =>
    cases ht
    exact .nil
  | @cons p r payouts received hr _ ih =>
    rw [settle]
    by_cases hp : p.2=[]
    · rw [List.filter_cons,if_neg (by simp [hp])] at ha ht
      rw [if_pos hp]
      exact ih ha ht
    · rw [List.filter_cons,if_pos (by simp [hp])] at ha ht
      rw [if_neg hp]
      cases ht with
      | cons htally ht =>
        refine .cons (fun x => ?_) (ih (fun j h1 h2 => ha j (by omega) (by simp only [List.length_cons]; omega)) ht)
        rw [tally_recorded htally,hr,ha i le_rfl (by simp)]
        rfl

/-- No destination leaves the books. -/
theorem enter_length {arrives : ℕ → Bool} {payouts : List (Destination × List Coin)} {received : List (Denom → ℕ)}
    {i : ℕ} (h : payouts.length=received.length) :
    (settle arrives i payouts received).length+(lose payouts received).length=received.length := by
  induction payouts generalizing received i with
  | nil =>
    cases received with
    | nil => rfl
    | cons r received => cases h
  | cons p payouts ih =>
    cases received with
    | nil => cases h
    | cons r received =>
      have hrec := fun j => @ih received j (by simpa using h)
      simp only [lose] at hrec
      by_cases hp : p.2=[]
      · have := hrec i
        simp only [settle,lose,hp,if_true,List.zip_cons_cons,List.filter_cons,decide_true,List.map_cons,List.length_cons]
        omega
      · have := hrec (i+1)
        simp only [settle,lose,hp,if_false,List.zip_cons_cons,List.filter_cons,decide_false,List.length_cons,
          Bool.false_eq_true]
        omega

/-- Books stay exact over an execution when every message arrives and only destinations without a
record are dropped. -/
theorem Exact.enter {ledger : Ledger} {d d' : Distribution} {deps : Deps} {env : Env} {arrives : ℕ → Bool}
    {messages : List CosmosMsg} (he : ledger.Exact d.destinations) (hm : messages≠[])
    (h : d.executeUnsafe deps env=.ok (messages,d')) (ha : ∀ i < messages.length, arrives i=true)
    (hl : ∀ p ∈ d.payments deps env, p.2=[] → ∀ x, p.1.recorded x=0) :
    (ledger.enter (d.payments deps env) arrives).Exact d'.destinations := by
  obtain ⟨balances,hread,⟨_,rfl,_⟩ | ⟨_,_,hmsgs,htally⟩⟩ := Distribution.executeUnsafe_payments h
  · exact absurd rfl hm
  · have hfst : (d.payments deps env).map Prod.fst=d.destinations := by
      rw [Distribution.payments,hread]
      exact Distribution.payouts_fst _ _ _ _ _
    have hstored : List.Forall₂ (fun p r => ∀ x, p.1.recorded x=r x) (d.payments deps env) ledger.received := by
      have := he.stored
      rw [← Distribution.payments_fst hread,List.forall₂_map_left_iff] at this
      exact this
    refine ⟨settle_exact hstored (fun j _ hj => ha j ?_) htally,fun r hr => ?_⟩
    · rw [← hmsgs.length_eq]
      omega
    · rcases List.mem_append.mp hr with hr | hr
      · exact he.dropped r hr
      · obtain ⟨⟨p,r'⟩,hmem,rfl⟩ := List.mem_map.mp hr
        obtain ⟨hz,hnil⟩ := List.mem_filter.mp hmem
        intro x
        have hr' : p.1.recorded x=r' x := (List.forall₂_iff_zip.mp hstored).2 hz x
        exact hr'.symm.trans (hl p (List.of_mem_zip hz).1 (by simpa using hnil) x)

end Ledger

namespace StrategyContract

section

variable [Crates]

/-- The payouts of a call that leaves with the messages of the node `k`, when that is a distribution. -/
def payoutsOf (k : ℕ) (c : Chain) (t : Turn) : Option (List (Destination × List Coin)) :=
  match c.status with
  | .finished => none
  | .pending previous =>
    match process t.gas t.deps t.env c.storage .execute previous with
    | .error _ => none
    | .ok result =>
      match result.progress,c.storage.nodes.get? k with
      | .messages i _ _,some (.action (.distribute d) _ _) => if i=k then some (d.payments t.deps t.env) else none
      | _,_ => none

/-- A run together with the books of the node `k`. -/
structure Books where
  chain : Chain
  ledger : Ledger

def Books.step (k : ℕ) (b : Books) (t : Turn) : Outcome Books := do
  let chain ← Chain.step .execute b.chain t
  return ⟨chain,match payoutsOf k b.chain t with
    | some payouts => b.ledger.enter payouts fun i => (t.outcomes i).isOk
    | none => b.ledger⟩

/-- Every payment of this call arrives, and a destination that it would pay nothing has no record. -/
def Arrives (k : ℕ) (c : Chain) (t : Turn) : Prop :=
  ∀ payouts, payoutsOf k c t=some payouts →
    (∀ i<(payouts.filter fun p => p.2≠[]).length, (t.outcomes i).isOk=true) ∧
      ∀ p ∈ payouts, p.2=[] → ∀ x, p.1.recorded x=0

/-- What is reached by calls that all deliver, run after run. -/
inductive Booked (k : ℕ) (b₀ : Books) : Books → Prop
  | start : Booked k b₀ b₀
  | call {b b' : Books} {t : Turn} : Booked k b₀ b → Arrives k b.chain t → b.step k t=.ok b' → Booked k b₀ b'
  | run {b : Books} : Booked k b₀ b → b.chain.status=.finished →
      Booked k b₀ ⟨Chain.start b.chain.storage,b.ledger⟩

/-- Before the first execution nobody has received anything. -/
def Books.opening (s : StrategyStorage) (d : Distribution) : Books :=
  ⟨Chain.start s,⟨d.destinations.map fun _ _ => 0,[]⟩⟩

variable {deps : Deps} {env : Env}

theorem run_distribute {d : Distribution} {i : ℕ} {next : Option ℕ} {messages : List CosmosMsg} {node' : Node}
    (h : run .execute (.action (.distribute d) i next) deps env=.ok (messages,node')) :
    ∃ d', d.executeUnsafe deps env=.ok (messages,d') ∧ node'=.action (.distribute d') i next := by
  obtain ⟨⟨_,a⟩,ha,he⟩ := Except.map_eq_ok.mp h
  obtain ⟨⟨ms,d'⟩,hd,he'⟩ := Except.map_eq_ok.mp ha
  cases he'
  cases he
  exact ⟨d',hd,rfl⟩

/-- A call changes a distribution only by executing it, and only when it leaves with its messages. -/
theorem process_distribution {gas k : ℕ} {s : StrategyStorage} {previous : Option ℕ} {r : Processed}
    {d : Distribution} {next : Option ℕ} (hs : Sane s.nodes)
    (hk : s.nodes.get? k=some (.action (.distribute d) k next))
    (h : process gas deps env s .execute previous=.ok r) :
    match r.progress with
    | .messages i messages _ => messages≠[] ∧
      if i=k then ∃ d', d.executeUnsafe deps env=.ok (messages,d') ∧
        r.nodes.get? k=some (.action (.distribute d') k next)
      else r.nodes.get? k=some (.action (.distribute d) k next)
    | _ => r.nodes.get? k=some (.action (.distribute d) k next) := by
  let I := fun nodes : Table ℕ Node => Sane nodes ∧ nodes.get? k=some (.action (.distribute d) k next)
  have hother : ∀ nodes node node', I nodes → nodes.get? node.index=some node → node'.wiring=node.wiring →
      (node.index=k → node'=node) → I (NodeStore.save nodes node') := by
    intro nodes node node' hi hn hw hsame
    refine ⟨NodeStore.sane_save hi.1 hn hw,?_⟩
    have hidx := Node.index_congr hw
    rw [NodeStore.get?_save,hidx]
    split_ifs with he
    · rw [hsame he.symm,← hn,← he,hi.2]
    · exact hi.2
  have hat : ∀ nodes node, I nodes → nodes.get? node.index=some node → node.index=k →
      node=.action (.distribute d) k next := by
    intro nodes node hi hn he
    rw [he,hi.2] at hn
    exact (Option.some.inj hn).symm
  obtain ⟨hends,_⟩ := process_invariant (I := I) (fun _ hi => hi.1)
    (fun nodes node node' hi hn hr => hother nodes node node' hi hn (run_wiring hr) fun he => by
      obtain rfl := hat nodes node hi hn he
      obtain ⟨d',hd,rfl⟩ := run_distribute hr
      rw [Distribution.executeUnsafe_silent hd]) (fun _ => ⟨hs,hk⟩)
    (fun p node node' _ hp hc => by
      have hn : s.nodes.get? node.index=some node := by rw [hs.index p node hp]; exact hp
      refine ⟨hs,hother s.nodes node node' ⟨hs,hk⟩ hn (Node.commit_wiring hc) fun he => ?_⟩
      obtain rfl := hat s.nodes node ⟨hs,hk⟩ hn he
      exact (Except.ok.inj hc).symm) h
  unfold Ends at hends
  cases hp : r.progress with
  | messages i ms q =>
    simp only [hp] at hends
    obtain ⟨nodes,node,node',hi,hn,hidx,hr,hne,he,_⟩ := hends
    refine ⟨hne,?_⟩
    have hn' : nodes.get? node.index=some node := hidx ▸ hn
    split_ifs with hik
    · obtain rfl := hat nodes node hi hn' (hidx.trans hik)
      obtain ⟨d',hd,rfl⟩ := run_distribute hr
      exact ⟨d',hd,by rw [he]; exact NodeStore.get?_save_self⟩
    · rw [he]
      exact (hother nodes node node' hi hn' (run_wiring hr) fun h => absurd (hidx.symm.trans h) hik).2
  | failed i e =>
    simp only [hp] at hends
    exact hends.1.2
  | finished p =>
    simp only [hp] at hends
    exact hends.2

/-- One call that delivers keeps the books exact. -/
theorem step_exact {k : ℕ} {b b' : Books} {t : Turn} {d : Distribution} {next : Option ℕ}
    (hs : Sane b.chain.storage.nodes) (hk : b.chain.storage.nodes.get? k=some (.action (.distribute d) k next))
    (he : b.ledger.Exact d.destinations) (ha : Arrives k b.chain t) (h : b.step k t=.ok b') :
    Sane b'.chain.storage.nodes ∧ ∃ d', b'.chain.storage.nodes.get? k=some (.action (.distribute d') k next) ∧
      b'.ledger.Exact d'.destinations ∧ b'.ledger.received.length+b'.ledger.dropped.length=
        b.ledger.received.length+b.ledger.dropped.length := by
  obtain ⟨chain,hstep,h⟩ := Except.bind_eq_ok.mp h
  cases h
  obtain ⟨hstat,rfl⟩ | ⟨previous,r,hstat,hproc,hstorage,_,_,_⟩ := Chain.step_eq_ok hstep
  · have hnone : payoutsOf k b.chain t=none := by simp only [payoutsOf,hstat]
    rw [hnone]
    exact ⟨hs,d,hk,he,rfl⟩
  · dsimp only
    rw [hstorage]
    refine ⟨(process_traces (traces_self hs) hproc).1.1,?_⟩
    have hcall := process_distribution hs hk hproc
    have hpay : payoutsOf k b.chain t=match r.progress with
        | .messages i _ _ => if i=k then some (d.payments t.deps t.env) else none
        | _ => none := by
      simp only [payoutsOf,hstat,hproc,hk]
      cases r.progress <;> rfl
    cases hp : r.progress with
    | messages i ms q =>
      simp only [hp] at hcall hpay
      obtain ⟨hne,hcall⟩ := hcall
      by_cases hik : i=k
      · rw [if_pos hik] at hcall hpay
        obtain ⟨d',hexec,hstored⟩ := hcall
        obtain ⟨harr,hdrop⟩ := ha _ hpay
        obtain ⟨_,hread,⟨_,hnil,_⟩ | ⟨_,_,hmsgs,_⟩⟩ := Distribution.executeUnsafe_payments hexec
        · exact absurd hnil hne
        · have hex := he.enter hne hexec (fun i hi => harr i (by rw [hmsgs.length_eq]; exact hi)) hdrop
          rw [hpay]
          refine ⟨d',hstored,hex,?_⟩
          have hlen : (d.payments t.deps t.env).length=b.ledger.received.length := by
            rw [← he.stored.length_eq,← Distribution.payments_fst hread,List.length_map]
          simp only [Ledger.enter,List.length_append]
          have := @Ledger.enter_length (fun i => (t.outcomes i).isOk) _ _ 0 hlen
          omega
      · rw [if_neg hik] at hcall hpay
        rw [hpay]
        exact ⟨d,hcall,he,rfl⟩
    | failed i e =>
      simp only [hp] at hcall hpay
      rw [hpay]
      exact ⟨d,hcall,he,rfl⟩
    | finished p =>
      simp only [hp] at hcall hpay
      rw [hpay]
      exact ⟨d,hcall,he,rfl⟩

/-- Over all runs whose payments arrive and that drop nobody with a record, the tallies of the node are
exactly what its destinations received. -/
theorem tallies_exact {s : StrategyStorage} {lists : List (List Node)} {k : ℕ} {d : Distribution}
    {next : Option ℕ} {b : Books} (hs : History s lists)
    (hk : s.nodes.get? k=some (.action (.distribute d) k next))
    (hempty : ∀ dest ∈ d.destinations, ∀ x, dest.recorded x=0) (hb : Booked k (Books.opening s d) b) :
    ∃ d', b.chain.storage.nodes.get? k=some (.action (.distribute d') k next) ∧
      b.ledger.Exact d'.destinations ∧ b.ledger.received.length+b.ledger.dropped.length=d.destinations.length := by
  have hall : Sane b.chain.storage.nodes ∧ ∃ d', b.chain.storage.nodes.get? k=some (.action (.distribute d') k next) ∧
      b.ledger.Exact d'.destinations ∧ b.ledger.received.length+b.ledger.dropped.length=d.destinations.length := by
    induction hb with
    | start =>
      refine ⟨hs.keys.1,d,hk,⟨?_,by simp [Books.opening]⟩,by simp [Books.opening]⟩
      rw [Books.opening,List.forall₂_map_right_iff]
      exact List.forall₂_same.mpr fun dest hdest x => hempty dest hdest x
    | call _ ha hstep ih =>
      obtain ⟨hs,d₁,hk,he,hlen⟩ := ih
      obtain ⟨hs',d₂,hk',he',hlen'⟩ := step_exact hs hk he ha hstep
      exact ⟨hs',d₂,hk',he',hlen'.trans hlen⟩
    | run _ _ ih => exact ih
  exact hall.2

end

section

attribute [local instance] Crates.plain

/-- A call that sees a balance of 100 rune and whose messages have the given outcome. -/
def paying (outcome : Except String Unit) : Turn :=
  ⟨2,Deps.withBalance fun _ _ => 100,⟨⟨1,⟨1⟩⟩,"strategy"⟩,fun _ => outcome⟩

/-- A payment of 100 that its recipient rejects is recorded all the same. -/
theorem failed_payment_is_recorded :
    ∃ c, Chain.run .execute (holding [payAll 0 none]) [paying (.error "rejected"),paying (.error "rejected")]=.ok c ∧
      c.status=.finished ∧ c.delivered=[] ∧ ∃ dest, c.storage.nodes.get? 0=
        some (.action (.distribute ⟨["rune"],[dest]⟩) 0 none) ∧ dest.recorded "rune"=100 := by
  refine ⟨_,rfl,by decide,by decide,⟨10000,.bank "owner",none,some [⟨100,"rune"⟩]⟩,by decide,by decide⟩

theorem tallies_exact_paying : ∃ b, Booked 0 (Books.opening (holding [payAll 0 none])
      ⟨["rune"],[⟨10000,.bank "owner",none,none⟩]⟩) b ∧ b.chain.status=.pending (some 0) ∧
    ∃ d', b.chain.storage.nodes.get? 0=some (.action (.distribute d') 0 none) ∧ b.ledger.Exact d'.destinations := by
  have hpay : payoutsOf 0 (Chain.start (holding [payAll 0 none])) (paying (.ok ()))=
      some [(⟨10000,.bank "owner",none,none⟩,[⟨100,"rune"⟩])] := by decide
  have hbooked : Booked 0 (Books.opening (holding [payAll 0 none]) ⟨["rune"],[⟨10000,.bank "owner",none,none⟩]⟩) _ :=
    .call (t := paying (.ok ())) .start (fun payouts h => by
      obtain rfl := Option.some.inj (hpay.symm.trans h)
      exact ⟨fun _ _ => rfl,by simp⟩) rfl
  have hstored : (holding [payAll 0 none]).nodes.get? 0=
      some (.action (.distribute ⟨["rune"],[⟨10000,.bank "owner",none,none⟩]⟩) 0 none) := by decide
  obtain ⟨d',hk,he,_⟩ := tallies_exact (holding_history [payAll 0 none] (by decide)) hstored
    (by simp [Destination.recorded]) hbooked
  exact ⟨_,hbooked,by decide,d',hk,he⟩

end

end StrategyContract
end CalcRs
