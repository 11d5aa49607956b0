import CalcRs.Actions.Payouts

/-! The destinations of a distribution over its executions. An execution that pays some of them nothing
stores the distribution without these, so they lose their share of every later execution. -/
namespace CalcRs

/-- Everything of a destination but its tallies. -/
def Destination.identity (d : Destination) : Recipient × ℕ × Option String := (d.recipient,d.shares,d.label)

namespace Distribution

/-- Equal up to the tallies, position by position. -/
def SameDestinations (d d' : Distribution) : Prop :=
  d'.denoms=d.denoms ∧ d'.destinations.map Destination.identity=d.destinations.map Destination.identity

/-- One execution: the state it sees, and the bank balances of the contract in it. -/
structure Step where
  deps : Deps
  env : Env
  balance : Denom → ℕ
  answers : deps.Answers env.contract balance

/-- The distributions that a run of executions stores, one after the other. -/
def runs (d : Distribution) : List Step → Outcome (List Distribution)
  | [] => .ok []
  | step :: steps => do
    let (_,stored) ← d.executeUnsafe step.deps step.env
    let later ← stored.runs steps
    return stored :: later

/-- Each destination but the last gets a whole unit of some denom, and so does the last: the portions
of the others leave some of a denom. -/
def PaysEveryone (d : Distribution) (balance : Denom → ℕ) : Prop :=
  (∀ x ∈ d.denoms, balance x=0) ∨
  (∀ dest ∈ d.destinations.dropLast, ∃ x ∈ d.denoms,
    Decimal.fractional≤balance x*(dest.shares*Decimal.fractional/d.totalShares)) ∧
  ∃ x ∈ d.denoms, (d.destinations.dropLast.map fun dest => portion (balance x) dest.shares d.totalShares).sum<balance x

theorem portion_ne_zero {balance shares total : ℕ} :
    portion balance shares total≠0 ↔ Decimal.fractional≤balance*(shares*Decimal.fractional/total) := by
  rw [portion,ne_eq,Nat.div_eq_zero_iff,not_or,not_lt]
  exact ⟨fun h => h.2,fun h => ⟨by decide,h⟩⟩

theorem payouts_nonempty_iff {denoms : List Denom} {balance remaining : Denom → ℕ} {total : ℕ} {ds : List Destination} :
    (∀ p ∈ payouts denoms balance total ds remaining, p.2≠[]) ↔
      (∀ d ∈ ds.dropLast, ∃ x ∈ denoms, portion (balance x) d.shares total≠0) ∧
        (ds≠[] → ∃ x ∈ denoms, (ds.dropLast.map fun d => portion (balance x) d.shares total).sum < remaining x) := by
  induction ds generalizing remaining with
  | nil => simp [payouts]
  | cons d ds ih =>
    rw [payouts,List.forall_mem_cons]
    by_cases hds : ds=[]
    · simp [hds,payouts,coinsOf_eq_nil,Nat.pos_iff_ne_zero]
    · rw [ih,if_neg hds,List.dropLast_cons_of_ne_nil hds,List.forall_mem_cons]
      simp only [ne_eq,coinsOf_eq_nil,not_forall,hds,not_false_eq_true,true_imp_iff,List.cons_ne_nil,
        List.map_cons,List.sum_cons,exists_prop]
      have hsub : ∀ x, ((ds.dropLast.map fun d => portion (balance x) d.shares total).sum<
          remaining x-portion (balance x) d.shares total ↔ portion (balance x) d.shares total+
          (ds.dropLast.map fun d => portion (balance x) d.shares total).sum < remaining x) := fun x => by omega
      simp only [hsub]
      tauto

theorem tally_eq_ok {destination destination' : Destination} {coins : List Coin}
    (h : tally destination coins=.ok destination') :
    ∃ before after, Coins.tryFrom (destination.distributions.getD [])=.ok before ∧ before.addAll coins=.ok after ∧
      destination'={ destination with distributions := some after.toVec } := by
  obtain ⟨before,hb,h⟩ := Except.bind_eq_ok.mp h
  obtain ⟨after,ha,h⟩ := Except.bind_eq_ok.mp h
  exact ⟨before,after,hb,ha,(Except.ok.inj h).symm⟩

theorem tallied_identity {kept : List (Destination × List Coin)} {ds : List Destination}
    (h : List.Forall₂ (fun p d => tally p.1 p.2=.ok d) kept ds) :
    ds.map Destination.identity=kept.map fun p => p.1.identity := by
  induction h with
  | nil => rfl
  | cons ht _ ih =>
    obtain ⟨_,_,_,_,rfl⟩ := tally_eq_ok ht
    rw [List.map_cons,List.map_cons,ih]
    rfl

/-- One execution keeps every destination if and only if it pays every one of them, or there is
nothing to pay. -/
theorem executeUnsafe_sameDestinations_iff {d d' : Distribution} {step : Step} {messages : List CosmosMsg}
    (hn : d.denoms.Nodup) (h : d.executeUnsafe step.deps step.env=.ok (messages,d')) :
    d'.denoms=d.denoms ∧ (SameDestinations d d' ↔ d.PaysEveryone step.balance) := by
  obtain ⟨balances,hread,hcases⟩ := executeUnsafe_payments h
  have hheld : ∀ x, balances.amountOf x=d.held step.balance x := readBalances_eq_ok hn step.answers hread
  have hsee : ∀ x, x ∈ balances.toVec.map Coin.denom ↔ x ∈ d.denoms ∧ step.balance x≠0 := fun x => by
    rw [mem_denoms_toVec,hheld,held]
    split_ifs with hx <;> simp [hx]
  have hin : ∀ x ∈ d.denoms, balances.amountOf x=step.balance x := fun x hx => by rw [hheld,held,if_pos hx]
  rcases hcases with ⟨hzero,_,rfl⟩ | ⟨⟨x,hne⟩,hdenoms,_,htally⟩
  · exact ⟨rfl,fun _ => .inl fun x hx => by rw [← hin x hx,hzero],fun _ => ⟨rfl,rfl⟩⟩
  · refine ⟨hdenoms,?_⟩
    obtain ⟨hx,hpos⟩ := (hsee x).mp (mem_denoms_toVec.mpr hne)
    have hpay : d.payments step.deps step.env=payouts (balances.toVec.map Coin.denom) balances.amountOf
        d.totalShares d.destinations balances.amountOf := by rw [payments,hread]
    have hall : d.destinations.map Destination.identity=(d.payments step.deps step.env).map fun p => p.1.identity := by
      rw [← payments_fst hread,List.map_map]
      rfl
    have hkeep : SameDestinations d d' ↔ ∀ p ∈ d.payments step.deps step.env, p.2≠[] := by
      rw [SameDestinations,tallied_identity htally,hall]
      constructor
      · rintro ⟨_,he⟩
        have hlen := congrArg List.length he
        rw [List.length_map,List.length_map] at hlen
        simpa using List.length_filter_eq_length_iff.mp hlen
      · intro hp
        exact ⟨hdenoms,by rw [List.filter_eq_self.mpr (by simpa using hp)]⟩
    rw [hkeep,hpay,payouts_nonempty_iff,PaysEveryone]
    constructor
    · rintro ⟨hothers,hlast⟩
      refine .inr ⟨fun dest hdest => ?_,?_⟩
      · obtain ⟨y,hy,hy0⟩ := hothers dest hdest
        have hy' := ((hsee y).mp hy).1
        rw [hin y hy'] at hy0
        exact ⟨y,hy',portion_ne_zero.mp hy0⟩
      · by_cases hnil : d.destinations=[]
        · exact ⟨x,hx,by simpa [hnil,Nat.pos_iff_ne_zero] using hpos⟩
        · obtain ⟨y,hy,hlt⟩ := hlast hnil
          have hy' := ((hsee y).mp hy).1
          rw [hin y hy'] at hlt
          exact ⟨y,hy',hlt⟩
    · rintro (hzero | ⟨hothers,y,hy,hlt⟩)
      · exact absurd (hzero x hx) hpos
      · refine ⟨fun dest hdest => ?_,fun _ => ⟨y,(hsee y).mpr ⟨hy,by omega⟩,by rwa [hin y hy]⟩⟩
        obtain ⟨z,hz,hle⟩ := hothers dest hdest
        refine ⟨z,(hsee z).mpr ⟨hz,fun h0 => ?_⟩,by rw [hin z hz]; exact portion_ne_zero.mpr hle⟩
        rw [h0,Nat.zero_mul] at hle
        exact absurd hle (by decide)

theorem init_eq_ok {raw d : Distribution} {deps : Deps} {affiliates : List Affiliate}
    (h : raw.init deps affiliates=.ok d) : d.denoms.Nodup := by
  simp only [init,genericErr,Except.ite_error_eq_ok,not_not] at h
  obtain ⟨_,_,hn,h⟩ := h
  obtain ⟨_,_,h⟩ := Except.bind_eq_ok.mp h
  simp only [Except.ite_error_eq_ok] at h
  obtain ⟨_,_,h⟩ := Except.bind_eq_ok.mp h.2
  obtain ⟨_,_,h⟩ := Except.bind_eq_ok.mp h
  cases h
  exact hn

theorem SameDestinations.trans_iff {a b c : Distribution} (h : SameDestinations a b) :
    SameDestinations a c ↔ SameDestinations b c := by
  rw [SameDestinations,SameDestinations,h.1,h.2]

theorem runs_sameDestinations_iff {d : Distribution} {steps : List Step} {ds : List Distribution}
    (hn : d.denoms.Nodup) (h : d.runs steps=.ok ds) :
    (∀ d' ∈ ds, SameDestinations d d') ↔ ∀ before ∈ (d :: ds).zip steps, before.1.PaysEveryone before.2.balance := by
  induction steps generalizing d ds with
  | nil =>
    cases h
    simp
  | cons step steps ih =>
    obtain ⟨⟨messages,stored⟩,he,h⟩ := Except.bind_eq_ok.mp h
    obtain ⟨later,hl,h⟩ := Except.bind_eq_ok.mp h
    cases h
    obtain ⟨hdenoms,hstep⟩ := executeUnsafe_sameDestinations_iff hn he
    rw [List.zip_cons_cons,List.forall_mem_cons,List.forall_mem_cons,← hstep,← ih (hdenoms ▸ hn) hl]
    constructor
    · rintro ⟨h1,h2⟩
      exact ⟨h1,fun d' hd' => h1.trans_iff.mp (h2 d' hd')⟩
    · rintro ⟨h1,h2⟩
      exact ⟨h1,fun d' hd' => h1.trans_iff.mpr (h2 d' hd')⟩

/-- Over any run of executions from `init` on, every stored distribution has the same destinations if
and only if every execution pays each destination a whole unit of some denom, or finds no balance. -/
theorem runs_keep_destinations_iff {raw d : Distribution} {deps : Deps} {affiliates : List Affiliate}
    {steps : List Step} {ds : List Distribution} (hinit : raw.init deps affiliates=.ok d)
    (h : d.runs steps=.ok ds) :
    (∀ d' ∈ ds, SameDestinations d d') ↔ ∀ before ∈ (d :: ds).zip steps, before.1.PaysEveryone before.2.balance :=
  runs_sameDestinations_iff (init_eq_ok hinit) h

/-- A user's distribution with one small and one large destination. -/
def unequal : Distribution := ⟨["rune"],[⟨1,.bank "small",none,none⟩,⟨9999,.bank "large",none,none⟩]⟩

def holdingRune (amount : ℕ) : Step where
  deps := Deps.withBalance fun _ _ => amount
  env := ⟨⟨1,⟨1⟩⟩,"strategy"⟩
  balance _ := amount
  answers _ := rfl

/-- A balance of 100 pays the small destination nothing; a later balance of 20000 no longer does either,
although its share of that is one unit. -/
theorem small_share_is_dropped : unequal.init Deps.silent []=.ok unequal ∧
    unequal.runs [holdingRune 100,holdingRune 20000]=.ok
      [⟨["rune"],[⟨9999,.bank "large",none,some [⟨100,"rune"⟩]⟩]⟩,
       ⟨["rune"],[⟨9999,.bank "large",none,some [⟨20100,"rune"⟩]⟩]⟩] ∧
    ¬SameDestinations unequal ⟨["rune"],[⟨9999,.bank "large",none,some [⟨100,"rune"⟩]⟩]⟩ :=
  ⟨by decide,by decide,fun h => absurd h.2 (by decide)⟩

theorem runs_keep_destinations_iff_unequal :
    (∀ d' ∈ [(⟨["rune"],[⟨1,.bank "small",none,some [⟨2,"rune"⟩]⟩,
      ⟨9999,.bank "large",none,some [⟨19998,"rune"⟩]⟩]⟩ : Distribution)], SameDestinations unequal d') ↔
      ∀ before ∈ [unequal,⟨["rune"],[⟨1,.bank "small",none,some [⟨2,"rune"⟩]⟩,
        ⟨9999,.bank "large",none,some [⟨19998,"rune"⟩]⟩]⟩].zip [holdingRune 20000],
        before.1.PaysEveryone before.2.balance :=
  have hinit : unequal.init Deps.silent []=.ok unequal := by decide
  runs_keep_destinations_iff hinit (by decide)

end Distribution
end CalcRs
